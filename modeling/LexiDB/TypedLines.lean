import LexiDB.Commands
import LexiDB.LineReading
import LexiDB.Reading

/-! What the command line client sends of the line that was typed. -/

namespace LexiDB

open Lib

/-- The two objects are Null, or the same Int, Bool or String. -/
def Object.Equal (obj other : Object) : Prop :=
  (obj = .null ∧ other = .null) ∨ (obj.scalar.isSome ∧ other.scalar = obj.scalar)

/-- The bytes of the request for the command are parsed as a command of its type
with its arguments. -/
def Cmd.Sent (mem : Mem) (env : Env) (supply : Supply) (b : Builder) (cmd : Cmd) : Prop :=
  ∃ call, cliCall cmd = some call ∧ ∃ fuel after, call.build mem env fuel b = .ok (some after) ∧
    ∃ rounds other, parse env supply rounds after.bytes = .ok other ∧ other.type = cmd.type ∧
      List.Forall₂ Object.Equal cmd.args other.args

section Sent

variable {mem : Mem} {env : Env} {supply : Supply} {cmd : Cmd} {b : Builder}

/-- What the server takes an argument for: Null is sent as the word NONE. -/
def TakenAs (arg obj : Object) : Prop :=
  (arg = .null ∧ obj.scalar = some (.string (cstr "NONE"))) ∨ (arg.scalar.isSome ∧ obj.scalar = arg.scalar)

theorem TakenAs.equal {arg obj : Object} (taken : TakenAs arg obj) (given : arg ≠ .null) : arg.Equal obj :=
  .inr (taken.resolve_left fun missing => given missing.1)

theorem TakenAs.given {arg obj : Object} (taken : TakenAs arg obj) (equal : arg.Equal obj) : arg ≠ .null := by
  rintro rfl
  obtain ⟨_, word⟩ | ⟨known, _⟩ := taken
  · obtain ⟨_, rfl⟩ | ⟨known, _⟩ := equal
    · cases word
    · cases known
  · cases known

theorem taken_equal_iff {args objs : List Object} (taken : List.Forall₂ TakenAs args objs) :
    List.Forall₂ Object.Equal args objs ↔ Object.null ∉ args := by
  induction taken with
  | nil => simp
  | cons head _ ih =>
    rw [List.forall₂_cons, ih, List.mem_cons, not_or]
    exact and_congr_left' ⟨fun equal => (head.given equal).symm, fun given => head.equal (Ne.symm given)⟩

theorem Object.Typed.built {obj : Object} (typed : obj.Typed limit) : obj.Built := by
  cases obj with
  | null => exact .null
  | int => exact .int
  | string => exact .string typed.1
  | _ => cases typed

theorem Object.Typed.sendable {obj : Object} (typed : obj.Typed limit) : obj.Sendable := by
  cases obj with
  | null => exact .null
  | int => exact .int
  | string => exact .string
  | _ => cases typed

section Encodings

variable (grants : supply.Grants) (exact_ : ∀ num : Int64, env.strtold (signedDecimal num.toInt) = num)
include grants exact_

theorem Object.Typed.readsAs {obj : Object} (typed : obj.Typed limit) (short : limit + 32 ≤ vstrMaxLargeSize) :
    ∃ text, text.length ≤ limit + 32 ∧ Encodes obj text ∧ ReadsAs env supply TakenAs obj text := by
  have scalar : obj.scalar.isSome → Encodes obj obj.wire → obj.wire.length ≤ limit + 32 →
      ∃ text, text.length ≤ limit + 32 ∧ Encodes obj text ∧ ReadsAs env supply TakenAs obj text := by
    intro known encodes fits
    refine ⟨obj.wire, fits, encodes, (scalar_readsAs grants exact_ known (Nat.le_trans fits short)).imp ?_⟩
    rintro other ⟨some_, same⟩
    exact ⟨some_, .inr ⟨known, same⟩⟩
  cases obj with
  | null =>
    refine ⟨cstr "+NONE\r\n", by simp [cstr], .null, (none_reads env grants).imp ?_⟩
    intro other is
    have word := (Scalar.string (cstr "NONE")).scalar_of_is is
    refine ⟨?_, .inl ⟨rfl, word⟩⟩
    rintro rfl
    cases word
  | int num =>
    have digits := signedDecimal_length_le (i := num.toInt) (by have := num.toInt_lt; have := num.le_toInt; omega)
    refine scalar rfl .int ?_
    simp only [Object.wire, Object.scalar, Scalar.value, Value.wire, Option.map_some, Option.getD_some, List.length_append,
      List.length_cons, crlf, List.length_nil]
    omega
  | string s =>
    have size := typed.2
    have digits := decimal_length_le (n := s.bytes.length) (by simp only [vstrMaxLargeSize] at short; omega)
    refine scalar rfl .string ?_
    simp only [Object.wire, Object.scalar, Scalar.value, Value.wire, bulkString, Option.map_some, Option.getD_some,
      List.length_append, List.length_cons, crlf, List.length_nil]
    omega
  | _ => cases typed

theorem typed_texts (short : limit + 32 ≤ vstrMaxLargeSize) {args : List Object} (typed : ∀ obj ∈ args, obj.Typed limit) :
    ∃ texts, texts.flatten.length ≤ args.length * (limit + 32) ∧
      List.Forall₂ (fun obj text => Encodes obj text ∧ ReadsAs env supply TakenAs obj text) args texts := by
  induction args with
  | nil => exact ⟨[], by simp, .nil⟩
  | cons obj args ih =>
    obtain ⟨text, size, reads⟩ := (typed obj (by simp)).readsAs grants exact_ short
    obtain ⟨texts, total, each⟩ := ih fun obj member => typed obj (by simp [member])
    refine ⟨text :: texts, ?_, .cons reads each⟩
    simp only [List.flatten_cons, List.length_append, List.length_cons, Nat.succ_mul]
    omega

end Encodings

theorem Call.frame_length (call : Call) {texts : List (List UInt8)} (few : texts.length ≤ 2) :
    (call.frame texts).length ≤ texts.flatten.length + 64 := by
  have word := word_short call.listed
  have digits := decimal_length_le (n := call.word.length) (by omega)
  have count := decimal_length_le (n := texts.length + 1) (by omega)
  unfold Call.frame
  split <;> simp only [bulkString, crlf, List.length_append, List.length_cons, List.length_nil] <;> omega

theorem Call.sent_iff (builds : mem.Grants) (grants : supply.Grants)
    (exact_ : ∀ num : Int64, env.strtold (signedDecimal num.toInt) = num) (valid : b.Valid) (empty : b.bytes = [])
    (call : Call) (typed : ∀ obj ∈ call.args, obj.Typed limit) (short : 2 * limit + 128 ≤ vstrMaxLargeSize) :
    (∃ fuel after, call.build mem env fuel b = .ok (some after) ∧ ∃ rounds other, parse env supply rounds after.bytes = .ok other ∧
      other.type = call.type ∧ List.Forall₂ Object.Equal call.args other.args) ↔ Object.null ∉ call.args := by
  have few : call.args.length ≤ 2 := by cases call <;> simp [Call.args]
  obtain ⟨texts, size, each⟩ := typed_texts grants exact_ (by omega) typed
  have encodes : List.Forall₂ Encodes call.args texts := each.imp fun _ _ both => both.1
  have total : texts.flatten.length ≤ 2 * (limit + 32) := Nat.le_trans size (Nat.mul_le_mul_right _ few)
  have framed := call.frame_length (encodes.length_eq ▸ few)
  have fits : Fits b (call.frame texts).length := by
    simp only [Fits, empty, List.length_nil]
    omega
  have objects : ∀ obj ∈ call.args, obj.Built := fun obj member => (typed obj member).built
  have sendable : ∀ obj ∈ call.args, obj.Sendable := fun obj member => (typed obj member).sendable
  have ints : ∀ (num : Int64) (obj : Object), TakenAs (.int num) obj → ∃ other, obj = .int other := by
    rintro num obj (⟨missing, _⟩ | ⟨_, same⟩)
    · cases missing
    · cases obj <;> simp [Object.scalar] at same ⊢
  obtain ⟨rounds, other, parsed, type, taken⟩ := call.parsed grants (each.imp fun _ _ both => both.2) ints
  constructor
  · -- whatever fuel it was built and parsed with, the frame and the command are these
    rintro ⟨fuel, after, built, more, again, reparsed, _, equal⟩
    have content : after.bytes = call.frame texts := by
      simpa [empty] using (call.built_frame builds valid built objects encodes fits).bytes
    have agree : parse env supply more (call.frame texts) = parse env supply rounds (call.frame texts) :=
      (parse_mono _).agree (by rw [← content, reparsed]; exact settled_ok _) (by rw [parsed]; exact settled_ok _)
    rw [← content, reparsed, content, parsed] at agree
    cases agree
    exact (taken_equal_iff taken).mp equal
  · intro given
    obtain ⟨enough, adds⟩ := call.adds_of_sendable env builds sendable objects encodes
    obtain ⟨after, built, appended⟩ := adds b valid fits
    have content : after.bytes = call.frame texts := by simpa [empty] using appended.bytes
    exact ⟨enough, after, built, rounds, other, by rw [content, parsed], type, (taken_equal_iff taken).mpr given⟩

/-- For every line `parse_line` returns a command, and the server reads what is
sent for it as that command exactly if its arguments were typed. -/
theorem typed_sent_iff {lines : Supply} (typing : lines.Grants) (builds : mem.Grants) (grants : supply.Grants)
    (exact_ : ∀ num : Int64, env.strtold (signedDecimal num.toInt) = num) (valid : b.Valid) (empty : b.bytes = [])
    (line : List UInt8) (short : 2 * line.length + 128 ≤ vstrMaxLargeSize) :
    ∃ cmd, (∀ fuel, line.length + 1 < fuel → cliParseLine lines fuel line = .ok cmd) ∧
      (cmd.type ≠ .illegal → cmd.type ≠ .help → (cmd.Sent mem env supply b ↔ ArgumentsTyped line)) := by
  obtain ⟨cmd, parsed⟩ := parsesLine_exists typing (show line.length ≤ vstrMaxLargeSize by omega)
  refine ⟨cmd, parsed.parses, fun legal other => ?_⟩
  obtain ⟨call, called, type, args⟩ := parsed.called legal other
  have sent := call.sent_iff builds grants exact_ valid empty (args ▸ parsed.typed) short
  rw [parsed.given legal, ← args, ← sent]
  simp only [Cmd.Sent, called, Option.some.injEq, exists_eq_left', type, args]

theorem typed_sent_iff_set :
    ∃ cmd, cliParseLine (.granted fun unread _ => unread) 20 (cstr "set a \"b c\"") = .ok cmd ∧
      cmd.Sent (.granted 1) .sample (.granted fun unread _ => unread) builderNew := by
  have grants := Supply.granted_grants fun unread _ => unread
  have exact_ : ∀ num : Int64, Env.sample.strtold (signedDecimal num.toInt) = num := by
    simp [Env.sample, signedValue_signedDecimal]
  obtain ⟨cmd, parses, sent⟩ := typed_sent_iff grants (Mem.granted_grants 1) grants exact_ vstrNew_valid vstrNew_bytes
    (cstr "set a \"b c\"") (by decide)
  have parsed := parses 20 (by decide)
  have set : (cliParseLine (.granted fun unread _ => unread) 20 (cstr "set a \"b c\"")).map Cmd.type = .ok .set := by decide
  rw [parsed] at set
  obtain type : cmd.type = .set := by simpa [Except.map] using set
  exact ⟨cmd, parsed, (sent (by simp [type]) (by simp [type])).mpr (by decide)⟩

/-- `get` without a key asks for the key NONE. -/
theorem typed_sent_iff_counterexample :
    ∃ cmd, cliParseLine (.granted fun unread _ => unread) 20 (cstr "get") = .ok cmd ∧ cmd.type = .get ∧
      ¬ cmd.Sent (.granted 1) .sample (.granted fun unread _ => unread) builderNew := by
  refine ⟨.get .null, by rfl, rfl, ?_⟩
  rintro ⟨call, called, sent⟩
  cases called
  have given := ((Call.get .null).sent_iff (Mem.granted_grants 1) (Supply.granted_grants _)
    (fun num => by simp [Env.sample, signedValue_signedDecimal]) vstrNew_valid vstrNew_bytes
    (show ∀ obj ∈ (Call.get .null).args, obj.Typed 0 by simp [Call.args, Object.Typed]) (by decide)).mp sent
  exact given (by simp [Call.args])

end Sent

end LexiDB
