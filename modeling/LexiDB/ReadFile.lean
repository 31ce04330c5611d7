import LexiDB.ConfigParser
import LexiDB.VstrFailures

/-! `read_file` of util.c, which reads the configuration file. -/

namespace LexiDB

open Lib

/-- EOF -/
def eof : Int := -1

/-- `fgetc`: the next byte as an unsigned value or EOF, and what is left to read. -/
def fgetc : List UInt8 → Int × List UInt8
  | [] => (eof, [])
  | byte :: rest => (byte.toNat, rest)

/-- What `errno` and `strerror` tell of a file that cannot be opened. -/
structure OpenError where
  errno : Nat
  text : List UInt8

def errOpenPath (path : List UInt8) (error : OpenError) : List UInt8 :=
  cstr "failed to open path " ++ untilNul path ++ cstr " (errno: " ++ decimal error.errno ++ cstr ") " ++ error.text

def errReadFullFile : List UInt8 := cstr "failed to read full file"

/-- The loop of `read_file`, with `none` where a push failed. `ch` is a `char`, which is
signed: it is narrowed before it is compared with EOF. -/
def readFileLoop (mem : Nat → Mem) : Nat → List UInt8 → Vstr → Except Halt (Option Vstr)
  | 0, _, _ => .error .fuel
  | fuel + 1, file, s =>
    let (c, file) := fgetc file
    let ch := Int8.ofInt c
    if ch.toInt ≠ eof then
      let (pushRes, s) := vstrPushChar (mem file.length) s ch.toUInt8
      if pushRes = -1 then .ok none else readFileLoop mem fuel file s
    else .ok (some s)

/-- `read_file`, given what `fopen` makes of the path: the bytes of the file. -/
def readFile (mem : Nat → Mem) (fuel : Nat) (path : List UInt8) (opened : Except OpenError (List UInt8)) :
    Except Halt (Result Vstr) :=
  match opened with
  | .error error => .ok (.err (errOpenPath path error))
  | .ok file => do
    match ← readFileLoop mem fuel file vstrNew with
    | none => return .err errReadFullFile
    | some s => return .ok s

/-- The byte is not taken for the end of the file. -/
def fileByte (byte : UInt8) : Bool := byte ≠ 255

section Loop

variable {mem : Nat → Mem} {s : Vstr}

/-- A character keeps its byte, and is EOF for one of them. -/
theorem narrowed_spec (byte : UInt8) :
    (Int8.ofInt byte.toNat).toUInt8 = byte ∧ ((Int8.ofInt byte.toNat).toInt ≠ eof ↔ fileByte byte = true) := by
  have every : ∀ n, n < 256 → (Int8.ofInt (UInt8.ofNat n).toNat).toUInt8 = UInt8.ofNat n ∧
      ((Int8.ofInt (UInt8.ofNat n).toNat).toInt ≠ eof ↔ fileByte (UInt8.ofNat n) = true) := by
    decide +kernel
  simpa using every byte.toNat byte.toNat_lt

/-- One round on a byte that is not taken for the end. -/
theorem readFileLoop_byte (taken : fileByte byte = true) (fuel : Nat) (rest : List UInt8) (s : Vstr) :
    readFileLoop mem (fuel + 1) (byte :: rest) s =
      if (vstrPushChar (mem rest.length) s byte).1 = -1 then .ok none
      else readFileLoop mem fuel rest (vstrPushChar (mem rest.length) s byte).2 := by
  obtain ⟨same, goesOn⟩ := narrowed_spec byte
  simp only [readFileLoop, fgetc, if_pos (goesOn.mpr taken), same]

/-- The loop ends in front of the first byte that is taken for the end. -/
theorem readFileLoop_end (rest : List UInt8) (ends : ∀ byte ∈ rest.head?, fileByte byte = false) (fuel : Nat) (s : Vstr) :
    readFileLoop mem (fuel + 1) rest s = .ok (some s) := by
  cases rest with
  | nil =>
    have last : (Int8.ofInt eof).toInt = eof := by decide
    simp only [readFileLoop, fgetc, last, ne_eq, not_true_eq_false, if_false]
  | cons byte rest =>
    have stops : ¬(Int8.ofInt byte.toNat).toInt ≠ eof := by
      rw [(narrowed_spec byte).2, ends byte rfl]
      exact Bool.false_ne_true
    simp only [readFileLoop, fgetc]
    exact if_neg stops

variable (grants : ∀ left, (mem left).Grants)
include grants

/-- What fits in front of the end is appended. -/
theorem readFileLoop_fits (read rest : List UInt8) (taken : ∀ byte ∈ read, fileByte byte = true)
    (ends : ∀ byte ∈ rest.head?, fileByte byte = false) (valid : s.Valid) (fits : s.bytes.length + read.length ≤ vstrMaxLargeSize)
    (enough : read.length < fuel) :
    ∃ t : Vstr, readFileLoop mem fuel (read ++ rest) s = .ok (some t) ∧ t.Valid ∧ t.bytes = s.bytes ++ read := by
  induction read generalizing s fuel with
  | nil =>
    obtain ⟨less, rfl⟩ : ∃ less, fuel = less + 1 := ⟨fuel - 1, by omega⟩
    exact ⟨s, readFileLoop_end rest ends less s, valid, by simp⟩
  | cons byte read ih =>
    obtain ⟨less, rfl⟩ : ∃ less, fuel = less + 1 := ⟨fuel - 1, by omega⟩
    simp only [List.length_cons] at fits enough
    obtain ⟨here, later⟩ := List.forall_mem_cons.mp taken
    obtain ⟨after, pushed, kept, content⟩ := vstrPushChar_spec (grants (read ++ rest).length) valid byte (by omega)
    have room : after.bytes.length + read.length ≤ vstrMaxLargeSize := by
      rw [content, List.length_append, List.length_singleton]
      omega
    obtain ⟨t, looped, last, whole⟩ := ih later kept room (show read.length < less by omega)
    refine ⟨t, ?_, last, ?_⟩
    · rw [List.cons_append, readFileLoop_byte here, pushed, if_neg (show ¬(0 : Int) = -1 by decide)]
      exact looped
    · rw [whole, content]
      simp

/-- Where it does not fit, the loop reports it. -/
theorem readFileLoop_full (read rest : List UInt8) (taken : ∀ byte ∈ read, fileByte byte = true) (valid : s.Valid)
    (more : vstrMaxLargeSize < s.bytes.length + read.length) (enough : read.length < fuel) :
    readFileLoop mem fuel (read ++ rest) s = .ok none := by
  induction read generalizing s fuel with
  | nil => exact absurd valid.length_le (Nat.not_le.mpr more)
  | cons byte read ih =>
    obtain ⟨less, rfl⟩ : ∃ less, fuel = less + 1 := ⟨fuel - 1, by omega⟩
    simp only [List.length_cons] at more enough
    obtain ⟨here, later⟩ := List.forall_mem_cons.mp taken
    obtain ⟨kept, ⟨done, content⟩ | ⟨refused, _⟩⟩ :=
      vstrPushChar_clean valid byte fun _ => (grants (read ++ rest).length).1
    · rw [List.cons_append, readFileLoop_byte here, done, if_neg (show ¬(0 : Int) = -1 by decide)]
      exact ih later kept (by rw [content]; simp only [List.length_append, List.length_singleton]; omega) (by omega)
    · rw [List.cons_append, readFileLoop_byte here, if_pos refused]

/-- `read_file` returns what is in front of the first byte 255 of the file, if a vstr
can hold it. -/
theorem readFile_front (path file : List UInt8) (enough : file.length < fuel) :
    if (file.takeWhile fileByte).length ≤ vstrMaxLargeSize then
      ∃ s : Vstr, readFile mem fuel path (.ok file) = .ok (.ok s) ∧ s.Valid ∧ s.bytes = file.takeWhile fileByte
    else readFile mem fuel path (.ok file) = .ok (.err errReadFullFile) := by
  have shorter := (List.takeWhile_sublist (p := fileByte) (l := file)).length_le
  have taken : ∀ byte ∈ file.takeWhile fileByte, fileByte byte = true := fun byte member => List.mem_takeWhile_imp member
  have split_ : file.takeWhile fileByte ++ file.dropWhile fileByte = file := List.takeWhile_append_dropWhile
  have ends : ∀ byte ∈ (file.dropWhile fileByte).head?, fileByte byte = false := by
    intro byte member
    have stopped := List.head?_dropWhile_not fileByte file
    rw [Option.mem_def.mp member] at stopped
    simpa using stopped
  split
  · rename_i fits
    obtain ⟨s, looped, valid, content⟩ := readFileLoop_fits grants _ _ taken ends vstrNew_valid
      (by simpa using fits) (show (file.takeWhile fileByte).length < fuel by omega)
    rw [split_] at looped
    exact ⟨s, by simp [readFile, looped], valid, by simpa using content⟩
  · rename_i more
    have looped := readFileLoop_full grants _ (file.dropWhile fileByte) taken vstrNew_valid
      (by simpa using Nat.not_le.mp more) (show (file.takeWhile fileByte).length < fuel by omega)
    rw [split_] at looped
    simp [readFile, looped]

/-- The whole file is read exactly where it has no byte 255 and a vstr can hold it. -/
theorem readFile_lossless_iff (path file : List UInt8) (enough : file.length < fuel) :
    (∃ s : Vstr, readFile mem fuel path (.ok file) = .ok (.ok s) ∧ s.Valid ∧ s.bytes = file) ↔
      255 ∉ file ∧ file.length ≤ vstrMaxLargeSize := by
  have front := readFile_front grants path file enough
  have clean : 255 ∉ file ↔ file.takeWhile fileByte = file := by
    rw [List.takeWhile_eq_self_iff]
    constructor
    · intro free byte member
      exact decide_eq_true fun same => free (same ▸ member)
    · intro all member
      exact absurd (all 255 member) (by decide)
  rw [clean]
  constructor
  · rintro ⟨s, read, _, content⟩
    split at front
    · rename_i fits
      obtain ⟨t, same, _, whole⟩ := front
      cases same.symm.trans read
      have all := whole.symm.trans content
      exact ⟨all, all ▸ fits⟩
    · cases front.symm.trans read
  · rintro ⟨all, fits⟩
    rw [all, if_pos fits] at front
    exact front

end Loop

theorem readFile_lossless_sample :
    (∃ s : Vstr, readFile (fun _ => .granted 1) 9 [] (.ok (cstr "port 80")) = .ok (.ok s) ∧ s.Valid ∧ s.bytes = cstr "port 80") ↔
      255 ∉ cstr "port 80" ∧ (cstr "port 80").length ≤ vstrMaxLargeSize :=
  readFile_lossless_iff (fun _ => Mem.granted_grants 1) [] (cstr "port 80") (by decide)

/-- The port behind a comment with an accented letter of Latin 1 is not seen. -/
theorem readFile_lossless_counterexample :
    let file := cstr "#" ++ 255 :: cstr "\nport 80"
    (∃ s : Vstr, readFile (fun _ => .granted 1) 20 [] (.ok file) = .ok (.ok s) ∧ s.bytes = cstr "#") ∧
      ¬∃ s : Vstr, readFile (fun _ => .granted 1) 20 [] (.ok file) = .ok (.ok s) ∧ s.Valid ∧ s.bytes = file := by
  intro file
  have front := readFile_front (fun _ => Mem.granted_grants 1) [] file (show file.length < 20 by decide)
  have stops : file.takeWhile fileByte = cstr "#" := by decide
  rw [stops, if_pos (by decide)] at front
  obtain ⟨s, read, _, content⟩ := front
  refine ⟨⟨s, read, content⟩, ?_⟩
  rintro ⟨t, same, _, whole⟩
  cases read.symm.trans same
  exact absurd (content.symm.trans whole) (by decide)

end LexiDB
