import LexiDB.HtInvariant
import LexiDB.LexiSet

/-! The dictionary and the set against a finite map, for any reading of the keys
that their hash and their comparison respect on the stored keys. -/

namespace LexiDB

open Lib

section Dictionary

variable {κ : Type} [DecidableEq κ] {ops : KeyOps K} {ht : Ht K V} {proj : K → κ} {map : κ → Option V}

/-- On the keys stored, comparing with `key` decides whether they read the same,
and those that do have its bytes. -/
structure Ht.Tells (ops : KeyOps K) (proj : K → κ) (ht : Ht K V) (key : K) : Prop where
  agrees : ∀ entry ∈ ht.items, ops.compare key entry.key = 0 ↔ proj entry.key = proj key
  hashed : ∀ entry ∈ ht.items, proj entry.key = proj key → ops.raw entry.key = ops.raw key

/-- The entries, read through `proj`, are this finite map. -/
def Ht.Maps (proj : K → κ) (ht : Ht K V) (map : κ → Option V) : Prop :=
  Represents (fun entry : HtEntry K V => proj entry.key) HtEntry.value ht.items map

omit [DecidableEq κ] in
theorem Ht.Tells.perm {other : Ht K V} (tells : ht.Tells ops proj key) (perm : other.items.Perm ht.items) :
    other.Tells ops proj key :=
  ⟨fun entry member => tells.agrees entry (perm.mem_iff.mp member),
    fun entry member => tells.hashed entry (perm.mem_iff.mp member)⟩

omit [DecidableEq κ] in
theorem Ht.Tells.aims (tells : ht.Tells ops proj key) :
    Aims (fun entry : HtEntry K V => proj entry.key) (Ht.entryHash ops ht.seed) ht.entries (proj key)
      (ops.hash ht.seed key) (ops.hits key) where
  agrees entry member := by simpa [KeyOps.hits] using tells.agrees entry member
  hashed entry member same := by simp [Ht.entryHash, KeyOps.hash, tells.hashed entry member same]

omit [DecidableEq κ] in
/-- `ht_get` answers for the map. -/
theorem htGet_maps (placed : ht.Placed ops) (maps : ht.Maps proj map) (tells : ht.Tells ops proj key) :
    htGet ops ht key = map (proj key) := by
  have found := tells.aims.find placed.placed maps
  rwa [placed.size] at found

theorem Ht.Placed.slot_eq (placed : ht.Placed ops) (key : K) : htHash ops ht key = ops.hash ht.seed key % ht.entries.length := by
  rw [placed.size]
  rfl

theorem Ht.Placed.entries_pos (placed : ht.Placed ops) : 0 < ht.entries.length := by
  rw [placed.size]
  exact placed.positive

omit [DecidableEq κ] in
/-- The table that an insertion searches still stands for the map. -/
private theorem htReserve_aims (placed : ht.Placed ops) (maps : ht.Maps proj map) (tells : ht.Tells ops proj key) (granted : calloc.isSome) :
    ∃ reserved, htReserve ops calloc ht = some reserved ∧ reserved.Placed ops ∧
      Aims (fun entry : HtEntry K V => proj entry.key) (Ht.entryHash ops reserved.seed) reserved.entries (proj key)
        (ops.hash reserved.seed key) (ops.hits key) ∧ reserved.Maps proj map := by
  obtain ⟨reserved, done⟩ := htReserve_granted ops ht granted
  obtain ⟨kept, perm, _⟩ := htReserve_spec placed done
  exact ⟨reserved, done, kept, (tells.perm perm).aims, maps.perm perm⟩

/-- `ht_insert` binds the key. -/
theorem htInsert_maps (placed : ht.Placed ops) (maps : ht.Maps proj map) (tells : ht.Tells ops proj key)
    (granted : calloc.isSome) (data : V) :
    ∃ after, htInsert ops calloc ht key data = (.ok, after) ∧
      after.Maps proj (Function.update map (proj key) (some data)) := by
  obtain ⟨reserved, done, kept, aims, rep⟩ := htReserve_aims placed maps tells granted
  have slot := kept.slot_eq key
  simp only [htInsert, done]
  split
  · rename_i chain walked
    rw [slot] at walked ⊢
    exact ⟨_, rfl, (aims.update kept.entries_pos rep walked (fun _ => rfl) (fun _ => rfl)).1⟩
  · rename_i walked
    refine ⟨_, rfl, ?_⟩
    rw [slot] at walked
    simp only [htLink, slot]
    exact (Aims.link ⟨key, data⟩ aims kept.entries_pos kept.placed rep (updateFirst?_eq_none.mp walked)).1

/-- `ht_try_insert` binds the key where it is not bound. -/
theorem htTryInsert_maps (placed : ht.Placed ops) (maps : ht.Maps proj map) (tells : ht.Tells ops proj key)
    (granted : calloc.isSome) (data : V) :
    ∃ after, htTryInsert ops calloc ht key data = (if (map (proj key)).isSome then .invKey else .ok, after) ∧
      after.Maps proj (if (map (proj key)).isSome then map else Function.update map (proj key) (some data)) := by
  obtain ⟨reserved, done, kept, aims, rep⟩ := htReserve_aims placed maps tells granted
  have slot := kept.slot_eq key
  simp only [htTryInsert, done]
  by_cases known : (chainAt reserved.entries (htHash ops reserved key)).any (ops.hits key) = true
  · obtain ⟨stored, member, hit⟩ := List.any_eq_true.mp known
    have present : (map (proj key)).isSome := by
      rw [(aims.stored rep (chainAt_subset member) hit).2]
      rfl
    rw [if_pos known, if_pos present, if_pos present]
    exact ⟨_, rfl, rep⟩
  · have clean : ∀ other ∈ chainAt reserved.entries (htHash ops reserved key), ops.hits key other = false := by
      intro other member
      by_contra hit
      exact known (List.any_eq_true.mpr ⟨other, member, by simpa using hit⟩)
    rw [slot] at clean
    obtain ⟨linked, missing⟩ := Aims.link ⟨key, data⟩ aims kept.entries_pos kept.placed rep clean
    have absent : ¬ (map (proj key)).isSome := by simp [missing]
    rw [if_neg known, if_neg absent, if_neg absent]
    refine ⟨_, rfl, ?_⟩
    simp only [htLink, slot]
    exact linked

/-- `ht_delete` succeeds exactly on a bound key and forgets it. -/
theorem htDelete_maps (placed : ht.Placed ops) (maps : ht.Maps proj map) (tells : ht.Tells ops proj key) :
    (htDelete ops ht key).1 = (if (map (proj key)).isSome then .ok else .invKey) ∧
      (htDelete ops ht key).2.Maps proj (Function.update map (proj key) none) := by
  have slot := placed.slot_eq key
  simp only [htDelete]
  split
  · rename_i walked
    rw [slot] at walked
    have missing := tells.aims.missing placed.placed maps (unlinkFirst?_eq_none.mp walked)
    refine ⟨by simp [missing], ?_⟩
    rwa [← missing, Function.update_eq_self]
  · rename_i chain walked
    rw [slot] at walked ⊢
    obtain ⟨forgets, present⟩ := tells.aims.unlink placed.entries_pos maps walked
    exact ⟨by simp [present], forgets⟩

/-- Only the key just inserted is new among the stored ones. -/
theorem htInsert_keys (placed : ht.Placed ops) (calloc : Option Nat) (key : K) (data : V) :
    ∀ entry ∈ (htInsert ops calloc ht key data).2.items, entry.key = key ∨ ∃ old ∈ ht.items, old.key = entry.key := by
  intro entry member
  rcases htInsert_items placed calloc key data with same | ⟨stored, others, _, before, after⟩ | ⟨_, added⟩
  · exact .inr ⟨entry, same ▸ member, rfl⟩
  · right
    rcases List.mem_cons.mp (after.mem_iff.mp member) with same | old
    · exact ⟨stored, before.mem_iff.mpr (by simp), by rw [same]⟩
    · exact ⟨entry, before.mem_iff.mpr (by simp [old]), rfl⟩
  · rcases List.mem_cons.mp (added.mem_iff.mp member) with same | old
    · exact .inl (by rw [same])
    · exact .inr ⟨entry, old, rfl⟩

theorem htDelete_subset (placed : ht.Placed ops) (key : K) : ∀ entry ∈ (htDelete ops ht key).2.items, entry ∈ ht.items := by
  intro entry member
  unfold htDelete at member
  simp only at member
  split at member
  · exact member
  · rename_i chain walked
    exact flatten_set_subset (placed.slot_lt ops key) (fun _ => unlinkFirst?_subset walked) member

end Dictionary

namespace LexiSet

/-- Every stored element, slot by slot. -/
def items (s : LexiSet α) : List α := s.entries.flatten

/-- A set that counts its elements and keeps each in the chain of its hash. -/
structure Placed (ops : KeyOps α) (s : LexiSet α) : Prop where
  size : s.entries.length = s.capacity
  positive : 0 < s.capacity
  count : s.numEntries = s.items.length
  placed : Lib.Placed (ops.hash s.seed) s.entries

/-- On the elements stored, comparing with `data` decides whether they read the
same, and those that do have its bytes. -/
structure Tells (ops : KeyOps α) (proj : α → κ) (s : LexiSet α) (data : α) : Prop where
  agrees : ∀ stored ∈ s.items, ops.compare data stored = 0 ↔ proj stored = proj data
  hashed : ∀ stored ∈ s.items, proj stored = proj data → ops.raw stored = ops.raw data

/-- The elements, read through `proj`, are the domain of this map, each once. -/
def Maps (proj : α → κ) (s : LexiSet α) (map : κ → Option Unit) : Prop :=
  Represents proj (fun _ => ()) s.items map

end LexiSet

section Set

variable {κ : Type} [DecidableEq κ] {ops : KeyOps α} {s : LexiSet α} {proj : α → κ} {map : κ → Option Unit}

theorem setNew_placed (ops : KeyOps α) (seed : List UInt8) : (setNew seed : LexiSet α).Placed ops where
  size := by simp [setNew]
  positive := by simp [setNew, setInitialCap]
  count := by simp [setNew, LexiSet.items]
  placed := placed_replicate _ _

@[simp] theorem setNew_items (seed : List UInt8) : (setNew seed : LexiSet α).items = [] := by
  simp [setNew, LexiSet.items]

omit [DecidableEq κ] in
theorem LexiSet.Tells.perm {other : LexiSet α} (tells : s.Tells ops proj data) (perm : other.items.Perm s.items) :
    other.Tells ops proj data :=
  ⟨fun stored member => tells.agrees stored (perm.mem_iff.mp member),
    fun stored member => tells.hashed stored (perm.mem_iff.mp member)⟩

omit [DecidableEq κ] in
theorem LexiSet.Tells.aims (tells : s.Tells ops proj data) :
    Aims proj (ops.hash s.seed) s.entries (proj data) (ops.hash s.seed data) (ops.same data) where
  agrees stored member := by simpa [KeyOps.same] using tells.agrees stored member
  hashed stored member same := by simp [KeyOps.hash, tells.hashed stored member same]

theorem LexiSet.Placed.slot_eq (placed : s.Placed ops) (data : α) :
    setHash ops s data = ops.hash s.seed data % s.entries.length := by
  rw [placed.size]
  rfl

theorem LexiSet.Placed.entries_pos (placed : s.Placed ops) : 0 < s.entries.length := by
  rw [placed.size]
  exact placed.positive

theorem LexiSet.Placed.slot_lt (placed : s.Placed ops) (data : α) : setHash ops s data < s.entries.length := by
  rw [placed.slot_eq]
  exact Nat.mod_lt _ placed.entries_pos

theorem setResize_spec (placed : s.Placed ops) (done : setResize ops mem s = some after) :
    after.Placed ops ∧ after.items.Perm s.items := by
  unfold setResize at done
  split at done
  · cases done
    have positive := placed.positive
    obtain ⟨length, kept, perm⟩ := rehash_spec (ops.hash s.seed) s.entries (Nat.mul_pos positive Nat.two_pos)
    refine ⟨⟨length, by simpa using positive, ?_, kept⟩, perm⟩
    simpa [LexiSet.items] using placed.count.trans perm.length_eq.symm
  · cases done

/-- The set after the growth check of `set_insert`. -/
private theorem setReserve_spec (placed : s.Placed ops) (granted : mem.resize = true) :
    ∃ reserved, (if s.numEntries ≥ s.capacity then setResize ops mem s else some s) = some reserved ∧
      reserved.Placed ops ∧ reserved.items.Perm s.items := by
  split
  · have done : setResize ops mem s = some { s with
        capacity := s.capacity * 2, entries := rehash (ops.hash s.seed) (s.capacity * 2) s.entries } := by
      simp [setResize, granted]
    exact ⟨_, done, setResize_spec placed done⟩
  · exact ⟨s, rfl, placed, .refl _⟩

/-- Linking an element in front of its chain. -/
theorem LexiSet.Placed.link (placed : s.Placed ops) (data : α) :
    ({ s with
      entries := s.entries.set (setHash ops s data) (data :: chainAt s.entries (setHash ops s data))
      numEntries := s.numEntries + 1 } : LexiSet α).Placed ops := by
  have inside := placed.slot_lt data
  refine ⟨by simpa using placed.size, placed.positive, ?_, placed.placed.set inside ?_⟩
  · have length := (flatten_set_perm inside data).length_eq
    simpa [LexiSet.items, placed.count] using length.symm
  · intro stored member
    rcases List.mem_cons.mp member with same | old
    · rw [same, placed.slot_eq]
    · exact placed.placed _ stored old

/-- `set_insert` adds the element, or finds it there. -/
theorem setInsert_maps (placed : s.Placed ops) (maps : s.Maps proj map) (tells : s.Tells ops proj data)
    (granted : mem.resize = true) (entry : mem.entry = true) :
    ∃ after, setInsert ops mem s data = (if (map (proj data)).isSome then .keyExists else .ok, after) ∧ after.Placed ops ∧
      after.Maps proj (Function.update map (proj data) (some ())) := by
  obtain ⟨reserved, done, kept, perm⟩ := setReserve_spec placed granted
  have aims := (tells.perm perm).aims
  have rep : Represents proj (fun _ => ()) reserved.entries.flatten map := maps.perm perm
  have linked : (∀ other ∈ chainAt reserved.entries (setHash ops reserved data), ops.same data other = false) →
      Represents proj (fun _ => ()) (reserved.entries.set (setHash ops reserved data)
        (data :: chainAt reserved.entries (setHash ops reserved data))).flatten
        (Function.update map (proj data) (some ())) ∧ map (proj data) = none := by
    intro clean
    rw [kept.slot_eq] at clean ⊢
    exact Aims.link data aims kept.entries_pos kept.placed rep clean
  simp only [setInsert, done, entry, ↓reduceIte]
  by_cases empty : chainAt reserved.entries (setHash ops reserved data) = []
  · obtain ⟨whole, missing⟩ := linked (by simp [empty])
    simp only [empty, ↓reduceIte]
    refine ⟨_, by rw [missing]; rfl, ?_, ?_⟩
    · simpa [empty] using kept.link data
    · rwa [empty] at whole
  · by_cases known : (chainAt reserved.entries (setHash ops reserved data)).any (ops.same data) = true
    · simp only [empty, known, ↓reduceIte]
      obtain ⟨stored, member, hit⟩ := List.any_eq_true.mp known
      have present := (aims.stored rep (chainAt_subset member) hit).2
      refine ⟨_, by rw [present]; rfl, kept, ?_⟩
      rw [← present, Function.update_eq_self]
      exact rep
    · have clean : ∀ other ∈ chainAt reserved.entries (setHash ops reserved data), ops.same data other = false := by
        intro other member
        by_contra hit
        exact known (List.any_eq_true.mpr ⟨other, member, by simpa using hit⟩)
      obtain ⟨whole, missing⟩ := linked clean
      simp only [empty, known, ↓reduceIte]
      exact ⟨_, by rw [missing]; rfl, kept.link data, whole⟩

omit [DecidableEq κ] in
/-- `set_has` answers for the map. -/
theorem setHas_maps (placed : s.Placed ops) (maps : s.Maps proj map) (tells : s.Tells ops proj data) :
    setHas ops s data = (map (proj data)).isSome := by
  have found := tells.aims.find placed.placed maps
  rw [← placed.slot_eq] at found
  rw [← found, Option.isSome_map, List.isSome_find?]
  rfl

omit [DecidableEq κ] in
theorem setDelete_placed (placed : s.Placed ops) (data : α) : (setDelete ops s data).2.Placed ops := by
  simp only [setDelete]
  split
  · exact placed
  · rename_i chain walked
    have inside := placed.slot_lt data
    have length := flatten_set_length inside chain
    have shorter := unlinkFirst?_length walked
    have keeps : ∀ stored ∈ chain, ops.hash s.seed stored % s.entries.length = setHash ops s data :=
      fun stored member => placed.placed _ stored (unlinkFirst?_subset walked member)
    refine ⟨by simpa using placed.size, placed.positive, ?_, placed.placed.set inside keeps⟩
    have start := placed.count
    simp only [LexiSet.items] at start ⊢
    omega

/-- `set_delete` succeeds exactly on a member and forgets it. -/
theorem setDelete_maps (placed : s.Placed ops) (maps : s.Maps proj map) (tells : s.Tells ops proj data) :
    (setDelete ops s data).1 = (if (map (proj data)).isSome then .ok else .invKey) ∧ (setDelete ops s data).2.Placed ops ∧
      (setDelete ops s data).2.Maps proj (Function.update map (proj data) none) := by
  have slot := placed.slot_eq data
  have kept := setDelete_placed placed data
  simp only [setDelete] at kept ⊢
  split
  · rename_i walked
    rw [slot] at walked
    have missing := tells.aims.missing placed.placed maps (unlinkFirst?_eq_none.mp walked)
    refine ⟨by simp [missing], placed, ?_⟩
    rwa [← missing, Function.update_eq_self]
  · rename_i chain walked
    rw [walked] at kept
    rw [slot] at walked
    obtain ⟨forgets, present⟩ := tells.aims.unlink placed.entries_pos maps walked
    refine ⟨by simp [present], kept, ?_⟩
    rw [LexiSet.Maps, LexiSet.items, slot]
    exact forgets

/-- Only the element just added is new among the stored ones. -/
theorem setInsert_items (placed : s.Placed ops) (mem : SetMem) (data : α) :
    ∀ stored ∈ (setInsert ops mem s data).2.items, stored = data ∨ stored ∈ s.items := by
  intro stored member
  have linked : ∀ other : LexiSet α, other.Placed ops →
      stored ∈ (other.entries.set (setHash ops other data) (data :: chainAt other.entries (setHash ops other data))).flatten →
      stored = data ∨ stored ∈ other.items := by
    intro other kept present
    exact List.mem_cons.mp ((flatten_set_perm (kept.slot_lt data) data).mem_iff.mp present)
  unfold setInsert at member
  split at member
  · exact .inr member
  · rename_i reserved done
    have kept : reserved.Placed ops ∧ reserved.items.Perm s.items := by
      split at done
      · exact setResize_spec placed done
      · cases done
        exact ⟨placed, .refl _⟩
    have old : stored ∈ reserved.items → stored = data ∨ stored ∈ s.items :=
      fun present => .inr (kept.2.mem_iff.mp present)
    have new : stored = data ∨ stored ∈ reserved.items → stored = data ∨ stored ∈ s.items := by
      rintro (same | present)
      · exact .inl same
      · exact old present
    simp only at member
    split at member
    · split at member
      · exact new (linked reserved kept.1 member)
      · exact old member
    · split at member
      · exact old member
      · split at member
        · exact new (linked reserved kept.1 member)
        · exact old member

theorem setDelete_subset (placed : s.Placed ops) (data : α) :
    ∀ stored ∈ (setDelete ops s data).2.items, stored ∈ s.items := by
  intro stored member
  unfold setDelete at member
  simp only at member
  split at member
  · exact member
  · rename_i chain walked
    exact flatten_set_subset (placed.slot_lt data) (fun _ => unlinkFirst?_subset walked) member

end Set

end LexiDB
