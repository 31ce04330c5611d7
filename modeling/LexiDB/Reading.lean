import LexiDB.Encoding
import LexiDB.RoundTrip

/-! Texts that `parse_object` reads as exactly one value. -/

namespace LexiDB

open Lib

/-- What the client decodes. -/
def Decodes (env : Env) (supply : Supply) (text : List UInt8) (obj : Object) : Prop :=
  ∃ fuel, parseFromServer env supply fuel text = .ok obj

/-- Whatever follows, one value is read and nothing behind the text. -/
def Complete (env : Env) (supply : Supply) (text : List UInt8) : Prop := Reads env supply text fun _ => True

theorem Reads.complete (reads : Reads env supply text P) : Complete env supply text := reads.imp fun _ _ => trivial

theorem Reads.decodes {P : Object → Prop} (reads : Reads env supply text P) : ∃ obj, Decodes env supply text obj ∧ P obj := by
  obtain ⟨fuel, obj, parsed, holds⟩ := reads []
  rw [List.append_nil] at parsed
  exact ⟨obj, ⟨fuel, by simp [parseFromServer, parsed]⟩, holds⟩

theorem Value.AllAre.length : ∀ {elems : List Value} {objs : List Object}, Value.AllAre elems objs → elems.length = objs.length
  | [], [], _ => rfl
  | _ :: _, _ :: _, all => congrArg Nat.succ (Value.AllAre.length all.2)

mutual

/-- The encoding of an object that holds a tree is the one of the tree. -/
theorem Value.Is.encodes : ∀ {v : Value} {obj : Object}, v.Is obj → Encodes obj v.wire
  | .int _, .int _, is => by
    cases is
    exact .int
  | .bool boolean, .bool other, is => by
    have same : decide (other ≠ 0) = boolean := is
    have text : (Value.bool boolean).wire = booleanTypeByte :: (if other ≠ 0 then ascii 't' else ascii 'f') :: crlf := by
      simp [Value.wire, ← same]
    rw [text]
    exact .bool
  | .string _, .string _, is => by
    obtain ⟨_, rfl⟩ := is
    exact .string
  | .array elems, .array vec, is => by
    obtain ⟨valid, all⟩ := is
    have count : elems.length = vec.len := by rw [Value.AllAre.length all, valid.length]
    simp only [Value.wire, count]
    exact .array (Value.AllAre.encodes all)

theorem Value.AllAre.encodes : ∀ {elems : List Value} {objs : List Object}, Value.AllAre elems objs → EncodesAll objs (Value.wires elems)
  | [], [], _ => .nil
  | _ :: _, _ :: _, all => .cons (Value.Is.encodes all.1) (Value.AllAre.encodes all.2)

end

section Lines

variable {supply : Supply} {line : List UInt8}

theorem simple_reads (env : Env) (grants : supply.Grants) (inLine : ∀ byte ∈ line, lineByte byte = true)
    (short : line.length ≤ vstrMaxLargeSize) : Reads env supply (ascii '+' :: line ++ crlf) (Value.string line).Is := by
  intro rest
  obtain ⟨t, read, valid, content⟩ := parseSimpleString_spec grants inLine short (ascii '+') rest (Nat.lt_succ_self line.length)
  have type : wireType (ascii '+') = some .simple := by decide
  refine ⟨line.length + 2, .string t, ?_, valid, content⟩
  simp only [List.cons_append, parserNew_cons, parseObject, type, read, ok_bind, parserReadChar_mk, pure_eq_ok]

/-- What Null is sent as. -/
theorem none_reads (env : Env) (grants : supply.Grants) : Reads env supply (cstr "+NONE\r\n") (Value.string (cstr "NONE")).Is := by
  have inLine : (cstr "NONE").all lineByte = true := by decide
  exact simple_reads env grants (List.all_eq_true.mp inLine) (by decide)

theorem error_reads (env : Env) (grants : supply.Grants) (inLine : ∀ byte ∈ line, lineByte byte = true)
    (short : line.length ≤ vstrMaxLargeSize) : Reads env supply (simpleErrTypeByte :: line ++ crlf) (Value.string line).Is := by
  intro rest
  obtain ⟨t, read, valid, content⟩ := parseLine_spec grants inLine short simpleErrTypeByte rest vstrNew_valid vstrNew_cleared
    vstrNew_bytes (Nat.lt_succ_self line.length)
  have type : wireType simpleErrTypeByte = some .error := by decide
  refine ⟨line.length + 2, .string t, ?_, valid, content⟩
  simp only [List.cons_append, parserNew_cons, parseObject, type, parseError, read, ok_bind, parserReadChar_mk, pure_eq_ok]

end Lines

section Elements

variable {env : Env} {supply : Supply}

/-- Behind a whole header the elements are read into an empty vector that can grow. -/
theorem parseObject_elements (env : Env) (grants : supply.Grants) (few : n < sizeMod) {body : List UInt8}
    {Q : Vec Object → Parser → Prop}
    (each : ∀ realloc : Nat → Option Nat, (∀ i, (realloc i).isSome) → ∀ vec : Vec Object, vec.Valid → vec.elems = [] →
      ∃ fuel after q, parseElems (parseObject env supply fuel) realloc n vec (parserNew body) = .ok (after, q) ∧ Q after q) :
    ∃ fuel after q, parseObject env supply fuel (parserNew (arrayTypeByte :: decimal n ++ crlf ++ body)) =
      .ok (.array after, q) ∧ Q after q := by
  have type : wireType arrayTypeByte = some .array := by decide
  obtain ⟨address, granted⟩ := Option.isSome_iff_exists.mp (grants (decimal n ++ (crlf ++ body)).length 0).1
  obtain ⟨fuel, after, q, looped, holds⟩ := each (fun i => (supply.mem (decimal n ++ (crlf ++ body)).length i).realloc)
    (fun i => (grants _ i).2) (vecNew address) (vecNew_valid address) rfl
  obtain ⟨large, enough⟩ : ∃ large, large = fuel + (decimal n).length + 1 := ⟨_, rfl⟩
  have header := parseHeader_decimal few arrayTypeByte body (show _ < large by omega)
  have more := (parseElems_mono _ _ _ _).ok_le looped (show fuel ≤ large by omega)
  refine ⟨large + 1, after, q, ?_, holds⟩
  simp only [List.append_assoc] at header
  simp only [List.cons_append, List.append_assoc, parserNew_cons, parseObject, type, parseArray, header, ok_bind,
    parserReadChar_mk, granted, more, pure_eq_ok]

/-- What follows a whole header only decides the elements. -/
theorem parseObject_opened (env : Env) (grants : supply.Grants) (few : n < sizeMod) {body : List UInt8} {Q : Parser → Prop}
    (each : ∀ (realloc : Nat → Option Nat) (vec : Vec Object), ∃ fuel after q,
      parseElems (parseObject env supply fuel) realloc n vec (parserNew body) = .ok (after, q) ∧ Q q) :
    ∃ fuel after q, parseObject env supply fuel (parserNew (arrayTypeByte :: decimal n ++ crlf ++ body)) =
      .ok (.array after, q) ∧ Q q :=
  parseObject_elements env grants few fun realloc _ vec _ _ => each realloc vec

/-- The loop over elements that are complete. -/
theorem parseElems_texts {texts : List (List UInt8)} (each : ∀ text ∈ texts, Complete env supply text) (rest : List UInt8)
    (realloc : Nat → Option Nat) (vec : Vec Object) : ∃ fuel after,
      parseElems (parseObject env supply fuel) realloc texts.length vec (parserNew (texts.flatten ++ rest)) =
        .ok (after, parserNew rest) := by
  induction texts generalizing vec with
  | nil => exact ⟨0, vec, rfl⟩
  | cons text texts ih =>
    obtain ⟨one, obj, parsed, _⟩ := each text (by simp) (texts.flatten ++ rest)
    obtain ⟨two, after, looped⟩ := ih (fun text member => each text (by simp [member])) (vecPush (realloc texts.length) vec obj).2
    have first := (parseObject_mono _).ok_le parsed (Nat.le_add_right one two)
    have then_ := (parseElems_mono _ _ _ _).ok_le looped (Nat.le_add_left two one)
    refine ⟨one + two, after, ?_⟩
    simp only [List.flatten_cons, List.length_cons, List.append_assoc, parseElems, first, ok_bind, then_]

theorem array_complete (grants : supply.Grants) {texts : List (List UInt8)} (few : texts.length < sizeMod)
    (each : ∀ text ∈ texts, Complete env supply text) :
    Complete env supply (arrayTypeByte :: decimal texts.length ++ crlf ++ texts.flatten) := by
  intro rest
  have elements : ∀ (realloc : Nat → Option Nat) (vec : Vec Object), ∃ fuel after q,
      parseElems (parseObject env supply fuel) realloc texts.length vec (parserNew (texts.flatten ++ rest)) = .ok (after, q) ∧
        q = parserNew rest := by
    intro realloc vec
    obtain ⟨fuel, after, looped⟩ := parseElems_texts each rest realloc vec
    exact ⟨fuel, after, _, looped, rfl⟩
  obtain ⟨fuel, after, q, parsed, rfl⟩ := parseObject_opened env grants few elements
  exact ⟨fuel, .array after, by simpa using parsed, trivial⟩

/-- The loop over pairs of which both parts are complete. -/
theorem parsePairs_texts {pairs : List (List UInt8 × List UInt8)}
    (each : ∀ pair ∈ pairs, Complete env supply pair.1 ∧ Complete env supply pair.2) (rest : List UInt8)
    (calloc : Nat → Option Nat) (ht : Ht Object Object) : ∃ fuel after,
      parsePairs env (parseObject env supply fuel) calloc pairs.length ht
        (parserNew (pairs.flatMap (fun pair => pair.1 ++ pair.2) ++ rest)) = .ok (after, parserNew rest) := by
  induction pairs generalizing ht with
  | nil => exact ⟨0, ht, rfl⟩
  | cons pair pairs ih =>
    obtain ⟨key, value⟩ := each pair (by simp)
    obtain ⟨one, name, named, _⟩ := key (pair.2 ++ pairs.flatMap (fun pair => pair.1 ++ pair.2) ++ rest)
    obtain ⟨two, obj, parsed, _⟩ := value (pairs.flatMap (fun pair => pair.1 ++ pair.2) ++ rest)
    obtain ⟨three, after, looped⟩ := ih (fun pair member => each pair (by simp [member]))
      (htInsert (objectOps env) (calloc pairs.length) ht name obj).2
    have first := (parseObject_mono _).ok_le named (show one ≤ one + two + three by omega)
    have second := (parseObject_mono _).ok_le parsed (show two ≤ one + two + three by omega)
    have then_ := (parsePairs_mono _ _ _ _).ok_le looped (show three ≤ one + two + three by omega)
    refine ⟨one + two + three, after, ?_⟩
    simp only [List.append_assoc] at first second then_
    simp only [List.flatMap_cons, List.length_cons, List.append_assoc, parsePairs, first, ok_bind, second, then_]

theorem map_complete (grants : supply.Grants) {pairs : List (List UInt8 × List UInt8)} (few : pairs.length < sizeMod)
    (each : ∀ pair ∈ pairs, Complete env supply pair.1 ∧ Complete env supply pair.2) :
    Complete env supply (htTypeByte :: decimal pairs.length ++ crlf ++ pairs.flatMap fun pair => pair.1 ++ pair.2) := by
  intro rest
  obtain ⟨body, same⟩ : ∃ body, body = pairs.flatMap (fun pair => pair.1 ++ pair.2) ++ rest := ⟨_, rfl⟩
  have type : wireType htTypeByte = some .ht := by decide
  obtain ⟨address, granted⟩ := Option.isSome_iff_exists.mp (grants (decimal pairs.length ++ (crlf ++ body)).length 0).1
  obtain ⟨fuel, after, looped⟩ := parsePairs_texts each rest
    (fun i => (supply.mem (decimal pairs.length ++ (crlf ++ body)).length i).calloc)
    (htNew (supply.seed (decimal pairs.length ++ (crlf ++ body)).length) address)
  obtain ⟨large, enough⟩ : ∃ large, large = fuel + (decimal pairs.length).length + 1 := ⟨_, rfl⟩
  have header := parseHeader_decimal few htTypeByte body (show _ < large by omega)
  have more := (parsePairs_mono _ _ _ _).ok_le looped (show fuel ≤ large by omega)
  refine ⟨large + 1, .ht after, ?_, trivial⟩
  rw [← same] at more
  simp only [List.append_assoc] at header
  simp only [List.cons_append, List.append_assoc, ← same, parserNew_cons, parseObject, type, parseHt, header, ok_bind,
    parserReadChar_mk, granted, more, pure_eq_ok]

/-- The encodings of several objects, one by one. -/
theorem EncodesAll.texts {objs : List Object} : ∀ {body}, EncodesAll objs body →
    ∃ texts, List.Forall₂ Encodes objs texts ∧ body = texts.flatten := by
  induction objs with
  | nil =>
    intro body encodes
    cases encodes
    exact ⟨[], .nil, rfl⟩
  | cons obj objs ih =>
    intro body encodes
    cases encodes with
    | cons head tail =>
      obtain ⟨texts, each, rfl⟩ := ih tail
      exact ⟨_ :: texts, .cons head each, rfl⟩

theorem forall₂_right {R : α → β → Prop} (each : List.Forall₂ R l m) (member : b ∈ m) : ∃ a ∈ l, R a b := by
  induction each with
  | nil => cases member
  | cons head _ ih =>
    rcases List.mem_cons.mp member with rfl | later
    · exact ⟨_, by simp, head⟩
    · obtain ⟨a, listed, related⟩ := ih later
      exact ⟨a, by simp [listed], related⟩

/-- The encoding of every object that can be sent is complete. -/
theorem Object.Sendable.complete (env : Env) (grants : supply.Grants) {obj : Object} (sendable : obj.Sendable) :
    ∀ {text}, obj.Built → Encodes obj text → text.length ≤ vstrMaxLargeSize → Complete env supply text := by
  induction sendable with
  | null =>
    intro text _ encodes _
    cases encodes
    exact (none_reads env grants).complete
  | @int num =>
    intro text _ encodes fits
    cases encodes
    exact ((Value.int num).reads env grants fits).complete
  | @bool boolean =>
    intro text _ encodes fits
    cases encodes
    have same : (Value.bool (decide (boolean ≠ 0))).wire =
        booleanTypeByte :: (if boolean ≠ 0 then ascii 't' else ascii 'f') :: crlf := by simp [Value.wire]
    rw [← same] at fits ⊢
    exact (Value.reads env grants _ fits).complete
  | @string s =>
    intro text _ encodes fits
    cases encodes
    exact ((Value.string s.bytes).reads env grants fits).complete
  | @array vec _ _ ih =>
    intro text built encodes fits
    cases encodes with
    | array elems =>
      cases built with
      | array valid bound parts =>
        obtain ⟨texts, each, rfl⟩ := elems.texts
        have count : texts.length = vec.len := by rw [← each.length_eq, valid.length]
        have small : vec.len ≤ vec.cap := valid.room
        rw [← count] at fits ⊢
        refine array_complete grants (by omega) ?_
        intro text member
        obtain ⟨obj, listed, encodes⟩ := forall₂_right each member
        have shorter := (List.sublist_flatten_of_mem member).length_le
        simp only [List.length_append] at fits
        exact ih obj listed (parts obj listed) encodes (by omega)
  | @ht table empty =>
    intro text built encodes _
    cases encodes with
    | ht order pairs =>
      cases built with
      | ht counted _ _ _ =>
        rw [empty] at order
        cases order.eq_nil
        cases pairs
        have count : table.numEntries = 0 := by rw [counted.count, empty, List.length_nil]
        rw [count]
        have none_ : ∀ pair ∈ ([] : List (List UInt8 × List UInt8)), Complete env supply pair.1 ∧ Complete env supply pair.2 := by
          simp
        exact map_complete grants (by decide) none_

end Elements

end LexiDB
