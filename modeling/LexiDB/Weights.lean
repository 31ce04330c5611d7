import LexiDB.HtInvariant
import LexiDB.ParserInvariant
import LexiDB.ParserObjects
import LexiDB.VstrInvariant

/-! How large a value is, and how much of the input the parser has left. -/

namespace LexiDB

open Lib

section Weights

mutual

/-- The objects an object is made of, itself included, and the bytes of its strings.
A Null counts `null`. -/
def Object.weight (null : Nat) : Object → Nat
  | .null => null
  | .int _ | .double _ | .bool _ => 1
  | .string s => 1 + vstrLen s
  | .array vec => 1 + vecWeight null vec
  | .ht ht => 1 + htWeight null ht

def vecWeight (null : Nat) : Vec Object → Nat
  | ⟨_, len, _, slots⟩ => slotsWeight null len slots

def slotsWeight (null : Nat) : Nat → List Object → Nat
  | 0, _ => 0
  | _, [] => 0
  | len + 1, obj :: slots => obj.weight null + slotsWeight null len slots

def htWeight (null : Nat) : Ht Object Object → Nat
  | ⟨_, _, _, _, entries⟩ => chainsWeight null entries

def chainsWeight (null : Nat) : List (List (HtEntry Object Object)) → Nat
  | [] => 0
  | chain :: chains => chainWeight null chain + chainsWeight null chains

def chainWeight (null : Nat) : List (HtEntry Object Object) → Nat
  | [] => 0
  | entry :: chain => entryWeight null entry + chainWeight null chain

def entryWeight (null : Nat) : HtEntry Object Object → Nat
  | ⟨key, value⟩ => key.weight null + value.weight null

end

/-- The objects and the string bytes of a value. -/
def Object.size (obj : Object) : Nat := obj.weight 1

/-- The same of the objects of a command. -/
def Cmd.weight (null : Nat) (cmd : Cmd) : Nat := (cmd.args.map (Object.weight null)).sum

def Cmd.size (cmd : Cmd) : Nat := cmd.weight 1

variable {null : Nat}

private theorem slotsWeight_eq (null len : Nat) (slots : List Object) :
    slotsWeight null len slots = ((slots.take len).map (Object.weight null)).sum := by
  induction slots generalizing len with
  | nil => cases len <;> simp [slotsWeight]
  | cons obj slots ih => cases len <;> simp [slotsWeight, ih]

theorem vecWeight_eq (null : Nat) (vec : Vec Object) : vecWeight null vec = (vec.elems.map (Object.weight null)).sum := by
  cases vec
  exact slotsWeight_eq ..

private theorem chainWeight_eq (null : Nat) (chain : List (HtEntry Object Object)) :
    chainWeight null chain = (chain.map (entryWeight null)).sum := by
  induction chain with
  | nil => rfl
  | cons entry chain ih => simp [chainWeight, ih]

private theorem chainsWeight_eq (null : Nat) (chains : List (List (HtEntry Object Object))) :
    chainsWeight null chains = (chains.flatten.map (entryWeight null)).sum := by
  induction chains with
  | nil => rfl
  | cons chain chains ih => simp [chainsWeight, chainWeight_eq, ih]

theorem entryWeight_eq (null : Nat) (entry : HtEntry Object Object) :
    entryWeight null entry = entry.key.weight null + entry.value.weight null := by
  cases entry
  rfl

private theorem htWeight_entries (null : Nat) (ht : Ht Object Object) : htWeight null ht = chainsWeight null ht.entries := by
  cases ht
  rfl

theorem htWeight_eq (null : Nat) (ht : Ht Object Object) : htWeight null ht = (ht.items.map (entryWeight null)).sum := by
  rw [htWeight_entries, chainsWeight_eq, Ht.items]

theorem htWeight_perm {ht : Ht Object Object} (perm : ht.items.Perm entries) : htWeight null ht = (entries.map (entryWeight null)).sum := by
  rw [htWeight_eq, (perm.map _).sum_eq]

/-- A push adds an element or is refused. -/
theorem vecPush_weight (null : Nat) {vec : Vec Object} (valid : vec.Valid) (realloc : Option Nat) (obj : Object) :
    (vecPush realloc vec obj).2.Valid ∧ vecWeight null (vecPush realloc vec obj).2 ≤ vecWeight null vec + obj.weight null := by
  by_cases granted : vec.len = vec.cap → realloc.isSome
  · obtain ⟨after, same, kept, content⟩ := vecPush_spec valid granted obj
    rw [same]
    refine ⟨kept, ?_⟩
    rw [vecWeight_eq, vecWeight_eq, content]
    simp
  · have refused : vecPush realloc vec obj = (-1, vec) := by
      rw [Classical.not_imp, Bool.not_eq_true, Option.isSome_eq_false_iff, Option.isNone_iff_eq_none] at granted
      simp [vecPush, granted, vecRealloc]
    rw [refused]
    exact ⟨valid, Nat.le_add_right _ _⟩

/-- An insertion adds the key and the value, the value in the place of another, or
nothing. -/
theorem htInsert_weight (null : Nat) {ops : KeyOps Object} {ht : Ht Object Object} (placed : ht.Placed ops) (calloc : Option Nat) (key value : Object) :
    htWeight null (htInsert ops calloc ht key value).2 ≤ htWeight null ht + key.weight null + value.weight null := by
  rcases htInsert_items placed calloc key value with same | ⟨entry, others, _, before, after⟩ | ⟨_, added⟩
  · rw [same]
    omega
  · rw [htWeight_perm before, htWeight_perm after]
    simp only [List.map_cons, List.sum_cons, entryWeight_eq]
    omega
  · rw [htWeight_perm added, htWeight_eq null ht]
    simp only [List.map_cons, List.sum_cons, entryWeight_eq]
    omega

/-- Only a Null compares equal to Null. -/
private theorem objectCmp_null {obj : Object} (same : objectCmp .null obj = 0) : obj = .null := by
  unfold objectCmp at same
  split at same
  · rename_i other
    cases obj with
    | null => exact absurd rfl other
    | _ => simp [Object.type] at same
  · rename_i type
    cases obj with
    | null => rfl
    | _ => simp [Object.type] at type

private theorem weight_pos (small : null ≤ 1) (obj : Object) : null ≤ obj.weight null := by
  cases obj <;> simp only [Object.weight] <;> omega

/-- A Null is a key of the table. -/
def NullKey (ht : Ht Object Object) : Prop := ∃ entry ∈ ht.items, entry.key = .null

/-- Without a value of its own a pair goes in once: the next one finds its key there. -/
theorem htInsert_null {env : Env} (small : null ≤ 1) {ht : Ht Object Object} (placed : ht.Placed (objectOps env)) (calloc : Option Nat) :
    ((htInsert (objectOps env) calloc ht .null .null).2 = ht ∨ NullKey (htInsert (objectOps env) calloc ht .null .null).2) ∧
      (NullKey ht → NullKey (htInsert (objectOps env) calloc ht .null .null).2 ∧
        htWeight null (htInsert (objectOps env) calloc ht .null .null).2 ≤ htWeight null ht) := by
  rcases htInsert_items placed calloc Object.null Object.null with same | ⟨entry, others, hit, before, after⟩ | ⟨missing, added⟩
  · rw [same]
    exact ⟨.inl rfl, fun present => ⟨present, Nat.le_refl _⟩⟩
  · have found : entry.key = .null := objectCmp_null (of_decide_eq_true hit)
    have present : NullKey (htInsert (objectOps env) calloc ht .null .null).2 :=
      ⟨_, after.mem_iff.mpr (List.mem_cons_self ..), found⟩
    have heavy := weight_pos small entry.value
    refine ⟨.inr present, fun _ => ⟨present, ?_⟩⟩
    rw [htWeight_perm before, htWeight_perm after]
    simp only [List.map_cons, List.sum_cons, entryWeight_eq, Object.weight]
    omega
  · have present : NullKey (htInsert (objectOps env) calloc ht .null .null).2 :=
      ⟨_, added.mem_iff.mpr (List.mem_cons_self ..), rfl⟩
    refine ⟨.inr present, ?_⟩
    rintro ⟨entry, member, key⟩
    have other := missing entry member (by rw [key])
    simp [KeyOps.hits, key, objectCmp] at other

end Weights

section Left

/-- The bytes from the one under the parser on. -/
def Parser.left (p : Parser) : Nat := if p.ch = 0 ∧ p.rest = [] then 0 else p.rest.length + 1

theorem parserNew_left (input : List UInt8) : (parserNew input).left ≤ input.length := by
  cases input with
  | nil => exact Nat.le_refl 0
  | cons byte rest =>
    unfold Parser.left
    split
    · exact Nat.zero_le _
    · exact Nat.le_refl _

theorem parserReadChar_left (p : Parser) : (parserReadChar p).left ≤ p.rest.length := parserNew_left p.rest

theorem Parser.left_of_ch {p : Parser} (here : p.ch ≠ 0) : p.left = p.rest.length + 1 := if_neg fun both => here both.1

theorem Parser.rest_left (p : Parser) : p.rest.length ≤ p.left := by
  unfold Parser.left
  split
  · rename_i over_
    simp [over_.2]
  · exact Nat.le_succ _

theorem Parser.Reaches.left {p q : Parser} (reaches : p.Reaches q) : q.left ≤ p.left := by
  obtain ⟨n, rfl⟩ := reaches
  induction n with
  | zero => exact Nat.le_refl _
  | succ n ih =>
    rw [Function.iterate_succ_apply']
    exact Nat.le_trans (parserReadChar_left _) (Nat.le_trans (Parser.rest_left _) ih)

/-- Past a byte that is not the end there is less. -/
theorem Parser.Reaches.left_lt {p q : Parser} (here : p.ch ≠ 0) (reaches : (parserReadChar p).Reaches q) : q.left + 1 ≤ p.left := by
  have onward := reaches.left
  have read := parserReadChar_left p
  have start := Parser.left_of_ch here
  omega

end Left

section Strings

variable {supply : Supply}

theorem parserPushes_length (supply : Supply) (count : Nat) (state : Vstr × Parser) :
    vstrLen (parserPushes supply count state).1 ≤ vstrLen state.1 + count := by
  induction count generalizing state with
  | zero => exact Nat.le_refl _
  | succ count ih =>
    have onward := ih (parserPush supply state)
    have pushed := vstrPushChar_length state.1 (supply.mem state.2.rest.length 1) state.2.ch
    simp only [parserPushes, parserPush] at onward ⊢
    omega

/-- A line is collected from bytes that are there. -/
theorem parserCollect_weight {s t : Vstr} (done : parserCollect supply lineByte fuel s p = .ok (t, q)) :
    vstrLen t + q.left ≤ vstrLen s + p.left := by
  have kept := whileFuel_invariant (fun state : Vstr × Parser => vstrLen state.1 + state.2.left ≤ vstrLen s + p.left) ?_ fuel (s, p) (t, q)
    (Nat.le_refl _) done
  · exact kept.1
  · rintro ⟨u, r⟩ holds again
    have here : r.ch ≠ 0 := by
      rintro zero
      simp [lineByte, zero] at again
    have pushed := vstrPushChar_length u (supply.mem r.rest.length 1) r.ch
    have read := (Parser.Reaches.refl (parserReadChar r)).left_lt here
    simp only [parserPush] at holds ⊢
    omega

theorem parseLine_weight {s t : Vstr} (empty : vstrLen s = 0) (here : p.ch ≠ 0) (done : parseLine supply fuel s p = .ok (t, q)) :
    1 + vstrLen t + (parserReadChar q).left ≤ p.left := by
  obtain ⟨⟨text, middle⟩, collected, done⟩ := bind_eq_ok.mp done
  have start := (Parser.Reaches.refl (parserReadChar p)).left_lt here
  have taken := parserCollect_weight collected
  have freed : 1 + vstrLen (vstrFree text) + (parserReadChar middle).left ≤ p.left := by
    have onward := (Parser.Reaches.read middle).left
    rw [vstrFree_length]
    omega
  simp only at done
  split at done
  · cases done
    exact freed
  · split at done
    · cases done
      exact freed
    · rename_i newline
      cases done
      cases expectPeekByte_eq newline
      have onward := ((Parser.Reaches.read middle).trans (.read _)).left
      omega

end Strings

end LexiDB
