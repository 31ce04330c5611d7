import LexiDB.ConfigLines

/-! A file of one number, however long: what `parse_config` takes it for. -/

namespace LexiDB

open Lib

section Reading

variable {supply : Supply} {digits : List UInt8}

/-- The parser comes to this result, whatever fuel it is given beyond what it needs. -/
def ConfigYields (supply : Supply) (input : List UInt8) (result : Result Config) : Prop :=
  ∃ enough, ∀ fuel, enough ≤ fuel → parseConfig supply fuel input = .ok result

theorem ConfigYields.unique (first : ConfigYields supply input result) (second : ConfigYields supply input other) : result = other := by
  obtain ⟨enough, parsed⟩ := first
  obtain ⟨more, again⟩ := second
  exact Except.ok.inj ((parsed _ (Nat.le_add_right ..)).symm.trans (again _ (Nat.le_add_left ..)))

private theorem Config.Leads.yields {address : Nat} (leads : (configNew address).Leads supply (parserNew input) result)
    (granted : (supply.mem input.length 0).calloc = some address) : ConfigYields supply input result := by
  obtain ⟨enough, parsed⟩ := leads
  exact ⟨enough, fun fuel more => by simp only [parseConfig, granted, parsed fuel more]⟩

/-- The vector of the users, which `parse_config` asserts, is there. -/
def Supply.VecGranted (supply : Supply) : Prop := ∀ unread, (supply.mem unread 0).calloc.isSome

/-- What a file of one port yields: the number modulo 2^64 is compared. -/
theorem parseConfig_port (granted : supply.VecGranted) (all : ∀ byte ∈ digits, isDigit byte = true) (final : Bool) :
    ∃ address, ConfigYields supply (configFile [.port digits] final)
      (if decimalValue digits % sizeMod > 65535 then .err (decimal (decimalValue digits % sizeMod) ++ cstr " is too big to be a port")
        else .ok { configNew address with port := UInt16.ofNat (decimalValue digits % sizeMod) }) := by
  obtain ⟨address, vec⟩ := Option.isSome_iff_exists.mp (granted (configFile [.port digits] final).length)
  have parsed (fuel : Nat) (enough : digits.length + 7 ≤ fuel) :=
    configParserParseLine_portDigits supply (lineTail_ends [] final) all enough
  have letter : ascii 'p' ≠ 0 ∧ ascii 'p' ≠ ascii '#' ∧ ascii 'p' ≠ ascii '\n' := by decide
  refine ⟨address, Config.Leads.yields ?_ vec⟩
  rw [configFile_cons]
  by_cases big : decimalValue digits % sizeMod > 65535
  · simp only [if_pos big] at parsed ⊢
    exact (configNew address).leads_refused letter _ parsed
  · simp only [if_neg big] at parsed ⊢
    have added (realloc : Option Nat) (port : UInt16) :
        (configNew address).add realloc (.port port) = .ok { configNew address with port := port } := by simp [Config.add, configNew]
    exact (Config.leads_lineTail _ final).directive letter _ parsed (added _ _)

/-- What a file of one number of databases yields. -/
theorem parseConfig_databases (granted : supply.VecGranted) (all : ∀ byte ∈ digits, isDigit byte = true) (final : Bool) :
    ∃ address, ConfigYields supply (configFile [.databases digits] final)
      (.ok { configNew address with databases := decimalValue digits % sizeMod }) := by
  obtain ⟨address, vec⟩ := Option.isSome_iff_exists.mp (granted (configFile [.databases digits] final).length)
  have parsed (fuel : Nat) (enough : digits.length + 12 ≤ fuel) :=
    configParserParseLine_databasesDigits supply (lineTail_ends [] final) all enough
  have letter : ascii 'd' ≠ 0 ∧ ascii 'd' ≠ ascii '#' ∧ ascii 'd' ≠ ascii '\n' := by decide
  refine ⟨address, Config.Leads.yields ?_ vec⟩
  rw [configFile_cons]
  have added (realloc : Option Nat) (databases : Nat) :
      (configNew address).add realloc (.databases databases) = .ok { configNew address with databases := databases } := by simp [Config.add, configNew]
  exact (Config.leads_lineTail _ final).directive letter _ parsed (added _ _)

end Reading

section Exact

variable {supply : Supply} {digits : List UInt8}

/-- The port is accepted exactly if the number is one, and is then that number. -/
def PortExact (supply : Supply) (digits : List UInt8) (final : Bool) : Prop :=
  ∃ result, ConfigYields supply (configFile [.port digits] final) result ∧
    ((∃ config, result = .ok config) ↔ decimalValue digits ≤ 65535) ∧
    ∀ config, result = .ok config → config.port.toNat = decimalValue digits

/-- The number of databases is accepted only as it is written. -/
def DatabasesExact (supply : Supply) (digits : List UInt8) (final : Bool) : Prop :=
  ∃ result, ConfigYields supply (configFile [.databases digits] final) result ∧
    ∀ config, result = .ok config → config.databases = decimalValue digits

theorem portExact_iff (granted : supply.VecGranted) (all : ∀ byte ∈ digits, isDigit byte = true) (final : Bool) :
    PortExact supply digits final ↔ decimalValue digits < sizeMod ∨ decimalValue digits % sizeMod > 65535 := by
  obtain ⟨address, yields⟩ := parseConfig_port granted all final
  have less : decimalValue digits % sizeMod ≤ decimalValue digits := Nat.mod_le ..
  split at yields
  · rename_i big
    refine iff_of_true ⟨_, yields, ?_, ?_⟩ (.inr big)
    · refine iff_of_false ?_ (by omega)
      rintro ⟨config, ⟨⟩⟩
    · rintro config ⟨⟩
  · rename_i small
    have read : (UInt16.ofNat (decimalValue digits % sizeMod)).toNat = decimalValue digits % sizeMod :=
      UInt16.toNat_ofNat_of_lt' (Nat.lt_succ_of_le (Nat.not_lt.mp small))
    constructor
    · rintro ⟨result, other, accepted, exact_⟩
      obtain rfl := yields.unique other
      have same := exact_ _ rfl
      simp only [read] at same
      exact .inl (by rw [← same]; exact Nat.mod_lt _ (by decide))
    · intro fits
      have whole : decimalValue digits % sizeMod = decimalValue digits := Nat.mod_eq_of_lt (fits.resolve_right small)
      refine ⟨_, yields, iff_of_true ⟨_, rfl⟩ (by omega), ?_⟩
      rintro config ⟨⟩
      exact read.trans whole

theorem databasesExact_iff (granted : supply.VecGranted) (all : ∀ byte ∈ digits, isDigit byte = true) (final : Bool) :
    DatabasesExact supply digits final ↔ decimalValue digits < sizeMod := by
  obtain ⟨address, yields⟩ := parseConfig_databases granted all final
  constructor
  · rintro ⟨result, other, exact_⟩
    obtain rfl := yields.unique other
    have same : decimalValue digits % sizeMod = decimalValue digits := exact_ _ rfl
    rw [← same]
    exact Nat.mod_lt _ (by decide)
  · intro fits
    refine ⟨_, yields, ?_⟩
    rintro config ⟨⟩
    exact Nat.mod_eq_of_lt fits

/-- A setting is exact as long as its number fits 64 bits; a port is refused too if what
is left of a larger number is no port. -/
theorem numbersExact_iff (granted : supply.VecGranted) (all : ∀ byte ∈ digits, isDigit byte = true) (final : Bool) :
    (PortExact supply digits final ↔ decimalValue digits < sizeMod ∨ decimalValue digits % sizeMod > 65535) ∧
      (DatabasesExact supply digits final ↔ decimalValue digits < sizeMod) :=
  ⟨portExact_iff granted all final, databasesExact_iff granted all final⟩

private def numbersSupply : Supply := .granted fun unread _ => unread

theorem numbersExact_iff_sample : PortExact numbersSupply (cstr "06969") false ∧ ¬DatabasesExact numbersSupply (cstr "99999999999999999999") false := by
  have granted : numbersSupply.VecGranted := fun _ => rfl
  have port : ∀ byte ∈ cstr "06969", isDigit byte = true := List.all_eq_true.mp (by decide)
  have databases : ∀ byte ∈ cstr "99999999999999999999", isDigit byte = true := List.all_eq_true.mp (by decide)
  refine ⟨(numbersExact_iff granted port false).1.mpr (by decide), fun exact_ => ?_⟩
  exact absurd ((numbersExact_iff granted databases false).2.mp exact_) (by decide)

/-- 2^64 + 6969 is taken for the port 6969, and 2^64 + 16 for 16 databases. -/
theorem numbersExact_counterexample :
    ¬PortExact numbersSupply (cstr "18446744073709558585") true ∧ ¬DatabasesExact numbersSupply (cstr "18446744073709551632") true := by
  have granted : numbersSupply.VecGranted := fun _ => rfl
  constructor
  · rw [portExact_iff granted (List.all_eq_true.mp (by decide))]
    decide
  · rw [databasesExact_iff granted (List.all_eq_true.mp (by decide))]
    decide

end Exact

end LexiDB
