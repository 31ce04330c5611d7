import Mathlib.Data.List.Basic
import Mathlib.Data.List.Perm.Basic
import Mathlib.Data.List.Nodup
import Mathlib.Data.List.Flatten
import Mathlib.Data.Set.Card
import Mathlib.Logic.Function.Basic

/-! Separately chained hash tables over an arbitrary entry type: an array of
chains, an entry living in the chain that its own hash selects. A lookup only
walks one chain, so it sees the whole table exactly when the entries it could
match share the hash it starts from. -/

namespace LexiDB.Lib

universe u v w

section Chain

variable {E : Type u}

/-- Walk a chain to the first match and rewrite it in place. -/
def updateFirst? (matches? : E → Bool) (rewrite : E → E) : List E → Option (List E)
  | [] => none
  | entry :: rest =>
    if matches? entry then some (rewrite entry :: rest)
    else (updateFirst? matches? rewrite rest).map (entry :: ·)

/-- Walk a chain to the first match and unlink it. -/
def unlinkFirst? (matches? : E → Bool) : List E → Option (List E)
  | [] => none
  | entry :: rest =>
    if matches? entry then some rest else (unlinkFirst? matches? rest).map (entry :: ·)

theorem updateFirst?_eq_none : updateFirst? matches? rewrite chain = none ↔
    ∀ entry ∈ chain, matches? entry = false := by
  induction chain with
  | nil => simp [updateFirst?]
  | cons entry rest ih => by_cases found : matches? entry <;> simp [updateFirst?, found, ih]

theorem unlinkFirst?_eq_none : unlinkFirst? matches? chain = none ↔
    ∀ entry ∈ chain, matches? entry = false := by
  induction chain with
  | nil => simp [unlinkFirst?]
  | cons entry rest ih => by_cases found : matches? entry <;> simp [unlinkFirst?, found, ih]

/-- A successful rewrite splits the chain at its first match. -/
theorem updateFirst?_split (done : updateFirst? matches? rewrite chain = some after) :
    ∃ before entry rest, chain = before ++ entry :: rest ∧ after = before ++ rewrite entry :: rest ∧
      matches? entry = true ∧ ∀ other ∈ before, matches? other = false := by
  induction chain generalizing after with
  | nil => simp [updateFirst?] at done
  | cons entry rest ih =>
    by_cases found : matches? entry
    · simp only [updateFirst?, found, ↓reduceIte, Option.some.injEq] at done
      exact ⟨[], entry, rest, rfl, done.symm, found, by simp⟩
    · simp only [updateFirst?, found, Bool.false_eq_true, ↓reduceIte, Option.map_eq_some_iff] at done
      obtain ⟨tail, walked, same⟩ := done
      obtain ⟨before, hit, remaining, split, result, hitMatches, clean⟩ := ih walked
      exact ⟨entry :: before, hit, remaining, by simp [split], by simp [← same, result], hitMatches,
        by simp_all⟩

theorem unlinkFirst?_split (done : unlinkFirst? matches? chain = some after) :
    ∃ before entry rest, chain = before ++ entry :: rest ∧ after = before ++ rest ∧
      matches? entry = true ∧ ∀ other ∈ before, matches? other = false := by
  induction chain generalizing after with
  | nil => simp [unlinkFirst?] at done
  | cons entry rest ih =>
    by_cases found : matches? entry
    · simp only [unlinkFirst?, found, ↓reduceIte, Option.some.injEq] at done
      exact ⟨[], entry, rest, rfl, done.symm, found, by simp⟩
    · simp only [unlinkFirst?, found, Bool.false_eq_true, ↓reduceIte, Option.map_eq_some_iff] at done
      obtain ⟨tail, walked, same⟩ := done
      obtain ⟨before, hit, remaining, split, result, hitMatches, clean⟩ := ih walked
      exact ⟨entry :: before, hit, remaining, by simp [split], by simp [← same, result], hitMatches,
        by simp_all⟩

/-- One entry goes, and the others stay. -/
theorem unlinkFirst?_length (done : unlinkFirst? matches? chain = some after) : after.length + 1 = chain.length := by
  obtain ⟨before, entry, rest, rfl, rfl, _, _⟩ := unlinkFirst?_split done
  simp only [List.length_append, List.length_cons]
  omega

theorem unlinkFirst?_subset (done : unlinkFirst? matches? chain = some after) (member : entry ∈ after) : entry ∈ chain := by
  obtain ⟨before, removed, rest, rfl, rfl, _, _⟩ := unlinkFirst?_split done
  rcases List.mem_append.mp member with old | old
  · exact List.mem_append_left _ old
  · exact List.mem_append_right _ (List.mem_cons_of_mem _ old)

end Chain

section Buckets

variable {E : Type u} {hash : E → Nat} {buckets : List (List E)}

/-- The chain at a slot; slots outside the array hold nothing. -/
def chainAt (buckets : List (List E)) (slot : Nat) : List E := buckets.getD slot []

/-- Link a node in front of the chain its hash selects. -/
def relink (hash : E → Nat) (buckets : List (List E)) (entry : E) : List (List E) :=
  let slot := hash entry % buckets.length
  buckets.set slot (entry :: chainAt buckets slot)

/-- Move every node of the old array, chain by chain, into a fresh one. -/
def rehash (hash : E → Nat) (size : Nat) (buckets : List (List E)) : List (List E) :=
  buckets.foldl (fun fresh chain => chain.foldl (relink hash) fresh) (List.replicate size [])

/-- Every entry sits in the chain of its hash modulo the array size. -/
def Placed (hash : E → Nat) (buckets : List (List E)) : Prop :=
  ∀ slot entry, entry ∈ chainAt buckets slot → hash entry % buckets.length = slot

/-- The array around one slot. -/
theorem buckets_split (inside : slot < buckets.length) :
    ∃ before after, buckets = before ++ chainAt buckets slot :: after ∧
      ∀ chain, buckets.set slot chain = before ++ chain :: after := by
  refine ⟨buckets.take slot, buckets.drop (slot + 1), ?_, ?_⟩
  · have here : chainAt buckets slot = buckets[slot] := by simp [chainAt, inside]
    rw [here, List.getElem_cons_drop, List.take_append_drop]
  · intro chain
    exact List.set_eq_take_append_cons_drop.trans (if_pos inside)

theorem chainAt_subset (member : entry ∈ chainAt buckets slot) : entry ∈ buckets.flatten := by
  by_cases inside : slot < buckets.length
  · obtain ⟨before, after, split, _⟩ := buckets_split inside
    rw [split, List.flatten_append, List.flatten_cons]
    simp [member]
  · simp [chainAt, List.getD_eq_getElem?_getD, inside] at member

/-- The entries around one of them, whether it is replaced or goes. -/
theorem buckets_entry (inside : slot < buckets.length) (split : chainAt buckets slot = before ++ entry :: rest) :
    ∃ left right, buckets.flatten = left ++ entry :: right ∧
      (∀ other, (buckets.set slot (before ++ other :: rest)).flatten = left ++ other :: right) ∧
      (buckets.set slot (before ++ rest)).flatten = left ++ right := by
  obtain ⟨front, back, whole, replaced⟩ := buckets_split inside
  refine ⟨front.flatten ++ before, rest ++ back.flatten, ?_, fun other => ?_, ?_⟩
  · conv => lhs; rw [whole, split]
    simp
  · simp [replaced]
  · simp [replaced]

/-- A chain of less leaves the array with less. -/
theorem flatten_set_subset (inside : slot < buckets.length) (fewer : ∀ entry ∈ chain, entry ∈ chainAt buckets slot)
    (member : entry ∈ (buckets.set slot chain).flatten) : entry ∈ buckets.flatten := by
  obtain ⟨front, back, whole, replaced⟩ := buckets_split inside
  rw [replaced, List.flatten_append, List.flatten_cons] at member
  rw [whole, List.flatten_append, List.flatten_cons]
  simp only [List.mem_append] at member ⊢
  exact member.imp_right (Or.imp_left (fewer entry))

theorem exists_chainAt (member : entry ∈ buckets.flatten) : ∃ slot, entry ∈ chainAt buckets slot := by
  obtain ⟨chain, present, inChain⟩ := List.mem_flatten.mp member
  obtain ⟨slot, inside, same⟩ := List.getElem_of_mem present
  exact ⟨slot, by simpa [chainAt, inside, same] using inChain⟩

theorem chainAt_set (inside : slot < buckets.length) :
    chainAt (buckets.set slot chain) other = if other = slot then chain else chainAt buckets other := by
  by_cases same : other = slot
  · subst other
    simp [chainAt, inside]
  · simp [chainAt, List.getD_eq_getElem?_getD, same, List.getElem?_set_ne (Ne.symm same)]

theorem placed_replicate (hash : E → Nat) (size : Nat) : Placed hash (List.replicate size []) := by
  intro slot entry member
  have present := chainAt_subset member
  simp at present

/-- A chain holds the entries of its hash, all of them and no others. -/
theorem Placed.mem_chainAt (placed : Placed hash buckets) :
    entry ∈ chainAt buckets slot ↔ entry ∈ buckets.flatten ∧ hash entry % buckets.length = slot := by
  constructor
  · intro member
    exact ⟨chainAt_subset member, placed slot entry member⟩
  · rintro ⟨member, here⟩
    obtain ⟨other, inChain⟩ := exists_chainAt member
    rwa [← here, placed other entry inChain]

theorem flatten_set_perm (inside : slot < buckets.length) (entry : E) :
    (buckets.set slot (entry :: chainAt buckets slot)).flatten.Perm (entry :: buckets.flatten) := by
  obtain ⟨before, after, split, replaced⟩ := buckets_split inside
  rw [replaced]
  conv => rhs; rw [split]
  simp

/-- Replacing one chain keeps the placement of all others. -/
theorem Placed.set (placed : Placed hash buckets) (inside : slot < buckets.length)
    (here : ∀ entry ∈ chain, hash entry % buckets.length = slot) :
    Placed hash (buckets.set slot chain) := by
  intro other entry member
  rw [chainAt_set inside] at member
  rw [List.length_set]
  split at member
  · subst other
    exact here entry member
  · exact placed other entry member

theorem flatten_set_length (inside : slot < buckets.length) (chain : List E) :
    (buckets.set slot chain).flatten.length + (chainAt buckets slot).length =
      buckets.flatten.length + chain.length := by
  obtain ⟨before, after, split, replaced⟩ := buckets_split inside
  rw [replaced]
  conv => rhs; rw [split]
  simp only [List.flatten_append, List.flatten_cons, List.length_append]
  omega

theorem relink_length (hash : E → Nat) (buckets : List (List E)) (entry : E) :
    (relink hash buckets entry).length = buckets.length := by simp [relink]

theorem Placed.relink (placed : Placed hash buckets) (positive : 0 < buckets.length) (entry : E) :
    Placed hash (relink hash buckets entry) := by
  refine placed.set (Nat.mod_lt _ positive) ?_
  intro other member
  rcases List.mem_cons.mp member with same | old
  · rw [same]
  · exact placed _ other old

/-- Moving a list of nodes keeps the array size and placement and adds exactly
these nodes. -/
private theorem relink_fold (entries : List E) (positive : 0 < buckets.length) (placed : Placed hash buckets) :
    (entries.foldl (relink hash) buckets).length = buckets.length ∧
      Placed hash (entries.foldl (relink hash) buckets) ∧
      (entries.foldl (relink hash) buckets).flatten.Perm (entries ++ buckets.flatten) := by
  induction entries generalizing buckets with
  | nil => exact ⟨rfl, placed, .refl _⟩
  | cons entry rest ih =>
    have size := relink_length hash buckets entry
    obtain ⟨length, kept, perm⟩ := ih (size ▸ positive) (placed.relink positive entry)
    refine ⟨length.trans size, kept, perm.trans ?_⟩
    have added : (relink hash buckets entry).flatten.Perm (entry :: buckets.flatten) :=
      flatten_set_perm (Nat.mod_lt _ positive) entry
    exact (added.append_left rest).trans List.perm_middle

theorem rehash_spec (hash : E → Nat) (buckets : List (List E)) (positive : 0 < size) :
    (rehash hash size buckets).length = size ∧ Placed hash (rehash hash size buckets) ∧
      (rehash hash size buckets).flatten.Perm buckets.flatten := by
  have nested : rehash hash size buckets = buckets.flatten.foldl (relink hash) (List.replicate size []) := by
    rw [rehash, List.foldl_flatten]
  obtain ⟨length, placed, perm⟩ := relink_fold buckets.flatten
    (by simpa using positive) (placed_replicate hash size)
  rw [nested]
  exact ⟨by simpa using length, placed, by simpa using perm⟩

end Buckets

section Map

variable {E : Type u} {κ : Type v} {ν : Type w} [DecidableEq κ]
variable {key : E → κ} {value : E → ν} {map : κ → Option ν} {entries : List E}

/-- The entries are the graph of a finite map, each key stored once. -/
structure Represents (key : E → κ) (value : E → ν) (entries : List E) (map : κ → Option ν) : Prop where
  nodup : (entries.map key).Nodup
  lookup : ∀ k v, map k = some v ↔ ∃ entry ∈ entries, key entry = k ∧ value entry = v

omit [DecidableEq κ] in
theorem Represents.empty : Represents key value [] fun _ => none := ⟨by simp, by simp⟩

omit [DecidableEq κ] in
theorem Represents.perm (rep : Represents key value entries map) (perm : others.Perm entries) :
    Represents key value others map := by
  refine ⟨(perm.map key).nodup_iff.mpr rep.nodup, ?_⟩
  intro k v
  simp only [rep.lookup, perm.mem_iff]

omit [DecidableEq κ] in
theorem Represents.absent (rep : Represents key value entries map) :
    map k = none ↔ ∀ entry ∈ entries, key entry ≠ k := by
  constructor
  · intro missing entry member same
    have present := (rep.lookup k (value entry)).mpr ⟨entry, member, same, rfl⟩
    rw [missing] at present
    cases present
  · intro fresh
    cases found : map k with
    | none => rfl
    | some v =>
      obtain ⟨entry, member, same, _⟩ := (rep.lookup k v).mp found
      exact False.elim (fresh entry member same)

theorem Represents.cons (rep : Represents key value entries map) (fresh : map (key entry) = none) :
    Represents key value (entry :: entries) (Function.update map (key entry) (some (value entry))) := by
  have missing := rep.absent.mp fresh
  refine ⟨?_, ?_⟩
  · simp only [List.map_cons, List.nodup_cons, List.mem_map, not_exists, not_and]
    exact ⟨missing, rep.nodup⟩
  · intro k v
    by_cases same : k = key entry
    · subst k
      simp only [Function.update_self, Option.some.injEq, List.mem_cons, exists_eq_or_imp, true_and]
      constructor
      · exact .inl
      · rintro (found | ⟨other, member, clash, _⟩)
        · exact found
        · exact False.elim (missing other member clash)
    · simp [Function.update_of_ne same, rep.lookup, Ne.symm same]

/-- Dropping one entry forgets its key and nothing else. -/
theorem Represents.remove (rep : Represents key value (before ++ entry :: after) map) :
    Represents key value (before ++ after) (Function.update map (key entry) none) := by
  have moved := rep.perm (List.perm_middle.symm)
  have nodup : key entry ∉ (before ++ after).map key ∧ ((before ++ after).map key).Nodup := by
    simpa only [List.map_cons, List.nodup_cons] using moved.nodup
  refine ⟨nodup.2, ?_⟩
  intro k v
  by_cases same : k = key entry
  · subst k
    simp only [Function.update_self, reduceCtorEq, false_iff, not_exists, not_and]
    intro other member clash
    exact False.elim (nodup.1 (List.mem_map.mpr ⟨other, member, clash⟩))
  · simp only [Function.update_of_ne same, moved.lookup, List.mem_cons, exists_eq_or_imp, Ne.symm same,
      false_and, false_or]

/-- Rewriting an entry in place, its key kept, rebinds the key. -/
theorem Represents.replace (rep : Represents key value (before ++ entry :: after) map)
    (kept : key fresh = key entry) :
    Represents key value (before ++ fresh :: after)
      (Function.update map (key entry) (some (value fresh))) := by
  have free : Function.update map (key entry) none (key fresh) = none := by simp [kept]
  have added := rep.remove.cons free
  rw [kept, Function.update_idem] at added
  exact added.perm List.perm_middle

/-- The entry list is as long as the map has keys. -/
theorem Represents.card (rep : Represents key value entries map) :
    {k | (map k).isSome}.ncard = entries.length := by
  have keys : {k | (map k).isSome} = ((entries.map key).toFinset : Set κ) := by
    ext k
    simp only [Set.mem_ofPred_eq, List.coe_toFinset, List.mem_map, Option.isSome_iff_exists, rep.lookup]
    constructor
    · rintro ⟨v, entry, member, same, _⟩
      exact ⟨entry, member, same⟩
    · rintro ⟨entry, member, same⟩
      exact ⟨value entry, entry, member, same, rfl⟩
  rw [keys, Set.ncard_coe_finset, List.toFinset_card_of_nodup rep.nodup, List.length_map]

end Map

section Table

variable {E : Type u} {κ : Type v} {ν : Type w} [DecidableEq κ]
variable {key : E → κ} {value : E → ν} {map : κ → Option ν}
variable {hash : E → Nat} {buckets : List (List E)} {k : κ} {h : Nat} {matches? : E → Bool}

/-- A search for `k` that starts from the hash `h` and tests with `matches?`
cannot be misled by this table: on the stored entries the test is equality of
keys, and equal keys have the searched hash. -/
structure Aims (key : E → κ) (hash : E → Nat) (buckets : List (List E)) (k : κ) (h : Nat)
    (matches? : E → Bool) : Prop where
  agrees : ∀ entry ∈ buckets.flatten, matches? entry = true ↔ key entry = k
  hashed : ∀ entry ∈ buckets.flatten, key entry = k → hash entry = h

omit [DecidableEq κ] in
/-- Whatever the whole table holds for the key is in the one searched chain. -/
theorem Aims.mem_chain (aims : Aims key hash buckets k h matches?) (placed : Placed hash buckets)
    (member : entry ∈ buckets.flatten) (same : key entry = k) :
    entry ∈ chainAt buckets (h % buckets.length) := by
  rw [← aims.hashed entry member same]
  exact placed.mem_chainAt.mpr ⟨member, rfl⟩

omit [DecidableEq κ] in
theorem Aims.missing (aims : Aims key hash buckets k h matches?) (placed : Placed hash buckets)
    (rep : Represents key value buckets.flatten map)
    (clean : ∀ entry ∈ chainAt buckets (h % buckets.length), matches? entry = false) : map k = none := by
  apply rep.absent.mpr
  intro entry member same
  have inChain := aims.mem_chain placed member same
  have hit := (aims.agrees entry member).mpr same
  rw [clean entry inChain] at hit
  cases hit

omit [DecidableEq κ] in
/-- A match is what the map has for the key. -/
theorem Aims.stored (aims : Aims key hash buckets k h matches?) (rep : Represents key value buckets.flatten map)
    (member : entry ∈ buckets.flatten) (hit : matches? entry = true) : key entry = k ∧ map k = some (value entry) := by
  have same := (aims.agrees entry member).mp hit
  exact ⟨same, (rep.lookup k (value entry)).mpr ⟨entry, member, same, rfl⟩⟩

omit [DecidableEq κ] in
/-- A lookup in the chain answers for the map. -/
theorem Aims.find (aims : Aims key hash buckets k h matches?) (placed : Placed hash buckets)
    (rep : Represents key value buckets.flatten map) :
    ((chainAt buckets (h % buckets.length)).find? matches?).map value = map k := by
  cases found : (chainAt buckets (h % buckets.length)).find? matches? with
  | none =>
    have clean := List.find?_eq_none.mp found
    simpa using (aims.missing placed rep (by simpa using clean)).symm
  | some entry =>
    exact (aims.stored rep (chainAt_subset (List.mem_of_find?_eq_some found)) (List.find?_some found)).2.symm

/-- Rewriting the match of the chain rebinds the key. -/
theorem Aims.update (aims : Aims key hash buckets k h matches?) (positive : 0 < buckets.length)
    (rep : Represents key value buckets.flatten map)
    (done : updateFirst? matches? rewrite (chainAt buckets (h % buckets.length)) = some chain)
    (keepsKey : ∀ entry, key (rewrite entry) = key entry) (stores : ∀ entry, value (rewrite entry) = v) :
    Represents key value (buckets.set (h % buckets.length) chain).flatten (Function.update map k (some v)) ∧
      (map k).isSome := by
  obtain ⟨before, entry, rest, split, rfl, hit, _⟩ := updateFirst?_split done
  obtain ⟨left, right, whole, replaced, _⟩ := buckets_entry (Nat.mod_lt h positive) split
  obtain ⟨same, present⟩ := aims.stored rep (by rw [whole]; simp) hit
  refine ⟨?_, by rw [present]; rfl⟩
  rw [whole] at rep
  have after := rep.replace (keepsKey entry)
  rwa [same, stores, ← replaced] at after

/-- Unlinking the match of the chain forgets the key. -/
theorem Aims.unlink (aims : Aims key hash buckets k h matches?) (positive : 0 < buckets.length)
    (rep : Represents key value buckets.flatten map)
    (done : unlinkFirst? matches? (chainAt buckets (h % buckets.length)) = some chain) :
    Represents key value (buckets.set (h % buckets.length) chain).flatten (Function.update map k none) ∧
      (map k).isSome := by
  obtain ⟨before, entry, rest, split, rfl, hit, _⟩ := unlinkFirst?_split done
  obtain ⟨left, right, whole, _, removed⟩ := buckets_entry (Nat.mod_lt h positive) split
  obtain ⟨same, present⟩ := aims.stored rep (by rw [whole]; simp) hit
  refine ⟨?_, by rw [present]; rfl⟩
  rw [whole] at rep
  have after := rep.remove
  rwa [same, ← removed] at after

/-- Linking a fresh entry in front of the searched chain binds its key. -/
theorem Aims.link (entry : E) (aims : Aims key hash buckets (key entry) h matches?) (positive : 0 < buckets.length)
    (placed : Placed hash buckets) (rep : Represents key value buckets.flatten map)
    (clean : ∀ other ∈ chainAt buckets (h % buckets.length), matches? other = false) :
    Represents key value
        (buckets.set (h % buckets.length) (entry :: chainAt buckets (h % buckets.length))).flatten
        (Function.update map (key entry) (some (value entry))) ∧
      map (key entry) = none := by
  have fresh := aims.missing placed rep clean
  exact ⟨(rep.cons fresh).perm (flatten_set_perm (Nat.mod_lt h positive) entry), fresh⟩

end Table

end LexiDB.Lib
