import LexiDB.Replies

/-! One request, one reply. -/

namespace LexiDB

open Lib

/-- `execute_cmd` returns, and whoever reads the reply reads one value and nothing of
what follows it. -/
def OneReply (env : Env) (ans : Answers) (s : Server) (c : Client) : Prop :=
  ∃ fuel t d text, executeCmd env ans fuel s c = .ok (t, d) ∧ Appended c.builder text d.builder ∧
    ∀ supply : Supply, supply.Grants → Complete env supply text

section Completeness

variable {env : Env} {supply : Supply} {s : Server}

private theorem info_complete (env : Env) (grants : supply.Grants) (now : Nat) (fits : (s.infoText now).length ≤ vstrMaxLargeSize) :
    Complete env supply (s.infoText now) := by
  have split : infoWire (s.info now) =
      ((s.info now).map fun entry => (bulkString entry.1, entry.2.wire)).flatMap fun pair => pair.1 ++ pair.2 := by
    simp [infoWire, List.flatMap_map]
  have each : ∀ pair ∈ (s.info now).map fun entry => (bulkString entry.1, entry.2.wire),
      Complete env supply pair.1 ∧ Complete env supply pair.2 := by
    intro pair member
    obtain ⟨⟨name, value⟩, listed, rfl⟩ := List.mem_map.mp member
    have inside : (bulkString name ++ value.wire).length ≤ (infoWire (s.info now)).length := by
      have part : bulkString name ++ value.wire ∈ (s.info now).map fun entry => bulkString entry.1 ++ entry.2.wire :=
        List.mem_map.mpr ⟨(name, value), listed, rfl⟩
      have sub := (List.sublist_flatten_of_mem part).length_le
      rwa [← List.flatMap_def] at sub
    simp only [Server.infoText, List.length_append] at fits inside
    refine ⟨((Value.string name).reads env grants (by simp only [Value.wire]; omega)).complete, ?_⟩
    cases value with
    | int val => exact ((Value.int val).reads env grants (by simp only [InfoValue.wire] at inside; simp only [Value.wire]; omega)).complete
    | string str => exact ((Value.string str).reads env grants (by simp only [InfoValue.wire] at inside; simp only [Value.wire]; omega)).complete
  have whole := map_complete grants (by simp [Server.info, sizeMod]) each
  rw [← split] at whole
  exact whole

/-- Every answer but that to KEYS is one value. -/
theorem Server.MayAnswer.complete (env : Env) (grants : supply.Grants) (may : s.MayAnswer now text)
    (stored : ∀ db ∈ s.db, db.Sendable) (fits : text.length ≤ vstrMaxLargeSize) : Complete env supply text := by
  cases may with
  | line listed =>
    refine (simple_reads env grants (serverLines_inLine listed) ?_).complete
    simp only [List.length_append, List.length_cons] at fits
    omega
  | error listed =>
    refine (error_reads env grants (serverErrors_inLine listed) ?_).complete
    simp only [List.length_append, List.length_cons] at fits
    omega
  | one => exact (Value.reads env grants _ fits).complete
  | stored found holds encodes =>
    obtain ⟨sendable, built⟩ := (stored _ (List.mem_of_getElem? found)).stored _ holds
    exact sendable.complete env grants built encodes fits
  | info => exact info_complete env grants now fits

theorem Encodes.two_le (encodes : Encodes obj text) : 2 ≤ text.length := by
  cases encodes <;> simp [cstr, crlf, bulkString] <;> omega

end Completeness

section Law

variable {env : Env} {ans : Answers} {s : Server} {c : Client}

/-- What is appended does not depend on the fuel. -/
theorem OneReply.complete (one : OneReply env ans s c) (done : executeCmd env ans fuel s c = .ok (t, d))
    (appended : Appended c.builder text d.builder) (grants : supply.Grants) : Complete env supply text := by
  obtain ⟨enough, u, e, other, returned, added, complete⟩ := one
  have same : executeCmd env ans fuel s c = executeCmd env ans enough s c :=
    executeCmd_mono.agree (by rw [done]; exact settled_ok _) (by rw [returned]; exact settled_ok _)
  rw [done, returned] at same
  cases same
  rw [appended.text_eq added]
  exact complete supply grants

end Law

section Runs

private def single : Hub := ⟨oneDatabase, fun _ => 0⟩

/-- Nothing but Ints on the stack of the only database. -/
private structure OnlyInts (s : Server) : Prop where
  single : ∃ db, s.db = [db] ∧ db.dict.items = [] ∧ db.dict.numEntries = 0
  ints : ∀ db ∈ s.db, ∀ obj, db.Stores obj → ∃ num, obj = .int num
  info : (s.infoText 0).length ≤ 1000

private theorem OnlyInts.sendable {s : Server} (only : OnlyInts s) : ∀ db ∈ s.db, db.Sendable := by
  intro db member
  refine ⟨?_, ?_⟩
  · intro obj holds
    obtain ⟨num, rfl⟩ := only.ints db member obj holds
    exact ⟨.int, .int⟩
  · obtain ⟨other, same, _, none_⟩ := only.single
    rw [same] at member
    cases List.mem_singleton.mp member
    rw [none_]
    decide

private theorem OnlyInts.room {s : Server} (only : OnlyInts s) (input : List UInt8) : (sender input).Room s 0 := by
  have fits : Fits (sender input).builder 1000 := by
    simp only [Fits, sender, builderNew, vstrNew_bytes]
    decide
  refine Client.room_of_bound fits (by decide) only.info ?_ ?_
  · intro db obj text member holds encodes
    obtain ⟨num, rfl⟩ := only.ints db member obj holds
    cases encodes
    have digits := signedDecimal_length_le (natAbs_toInt_lt num)
    simp only [crlf, List.length_append, List.length_cons, List.length_nil]
    omega
  · intro db walked texts here there encodes
    obtain ⟨other, same, empty, none_⟩ := only.single
    rw [same] at here there
    cases List.mem_singleton.mp here
    cases List.mem_singleton.mp there
    rw [empty] at encodes
    cases encodes
    rw [none_]
    decide

end Runs

end LexiDB
