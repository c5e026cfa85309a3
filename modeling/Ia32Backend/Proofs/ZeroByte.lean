import Ia32Backend.Proofs.TextDecoding
import Ia32Backend.StringPool
import Mathlib.Algebra.Ring.Parity
import Mathlib.Data.List.Induction

/-!
String data as the assembler takes it. A backslash combines with the character behind it, whatever
that is. A text that ends in a backslash without a partner therefore takes the backslash of the zero
byte, and leaves a digit behind. The string is closed at the end of its line in either case.
-/
namespace Ia32Backend

/-- What the assembler takes as one inside a string. -/
inductive StringUnit where
  | plain (c : Char)
  /-- A backslash with the character behind it. -/
  | escape (c : Char)
  deriving DecidableEq, Repr

namespace StringUnit

/-- The units up to the closing quote, and what stands behind it. With `waiting` a backslash still
waits for its character. A string does not go on over the end of a line. -/
def read (waiting : Bool) : List Char → Option (List StringUnit × List Char)
  | [] => none
  | c :: rest =>
      if c = '\n' then none
      else if waiting then (read false rest).map fun r => (.escape c :: r.1, r.2)
      else if c = '\\' then read true rest
      else if c = '"' then some ([], rest)
      else (read false rest).map fun r => (.plain c :: r.1, r.2)

/-- The string on a line, from its opening quote on. -/
def readLine (line : List Char) : Option (List StringUnit × List Char) :=
  read false (line.dropWhile (· ≠ '"')).tail

/-- A character code that an escape gives by its digits: three of base eight at most, or any number
of base sixteen. -/
structure Code where
  hex : Bool
  value : Nat
  digits : Nat
  deriving DecidableEq, Repr

def digit? (c : Char) : Option Nat := if c.isDigit then some (c.toNat - 48) else none

def hexDigit? (c : Char) : Option Nat :=
  if 'a' ≤ c ∧ c ≤ 'f' then some (c.toNat - 87)
  else if 'A' ≤ c ∧ c ≤ 'F' then some (c.toNat - 55)
  else digit? c

/-- The code with one more digit, if it takes the character as one. -/
def Code.extend? (n : Code) (c : Char) : Option Code :=
  if n.hex then (hexDigit? c).map fun d => ⟨true, 16 * n.value + d, n.digits + 1⟩
  else if n.digits < 3 then (digit? c).map fun d => ⟨false, 8 * n.value + d, n.digits + 1⟩
  else none

/-- The byte of a code that takes no more digits. -/
def close : Option Code → List UInt8
  | none => []
  | some n => [UInt8.ofNat n.value]

/-- What an escape stands for: bytes, or the start of a code. The backslash of an escape that means
nothing is left out. -/
def ofEscape (c : Char) : List UInt8 × Option Code :=
  match c with
  | 'b' => ([8], none)
  | 't' => ([9], none)
  | 'n' => ([10], none)
  | 'f' => ([12], none)
  | 'r' => ([13], none)
  | 'x' => ([], some ⟨true, 0, 0⟩)
  | 'X' => ([], some ⟨true, 0, 0⟩)
  | c =>
      match digit? c with
      | some d => ([], some ⟨false, d, 1⟩)
      | none => (String.utf8EncodeChar c, none)

/-- The bytes of a string, where a code may already be open. -/
def bytes (code : Option Code) : List StringUnit → List UInt8
  | [] => close code
  | .plain c :: rest =>
      match code.bind (·.extend? c) with
      | some longer => bytes (some longer) rest
      | none => close code ++ String.utf8EncodeChar c ++ bytes none rest
  | .escape c :: rest => close code ++ (ofEscape c).1 ++ bytes (ofEscape c).2 rest

/-- Whether a backslash waits for its character behind a text. -/
def waitsAfter (waiting : Bool) (text : List Char) : Bool :=
  text.foldl (fun waits c => !waits && c == '\\') waiting

/-- How many backslashes a text ends in. -/
def endBackslashes (text : List Char) : Nat := (text.reverse.takeWhile (· == '\\')).length

theorem waitsAfter_iff (text : List Char) :
    waitsAfter false text = true ↔ Odd (endBackslashes text) := by
  induction text using List.reverseRecOn with
  | nil => simp [waitsAfter, endBackslashes]
  | append_singleton text c ih =>
    have step : waitsAfter false (text ++ [c]) = (!waitsAfter false text && c == '\\') := by
      simp [waitsAfter]
    rw [step]
    by_cases backslash : c = '\\'
    · have one_more : endBackslashes (text ++ [c]) = endBackslashes text + 1 := by
        simp [endBackslashes, backslash]
      rw [one_more, Nat.odd_add_one, ← ih]
      simp [backslash]
    · have none_left : endBackslashes (text ++ [c]) = 0 := by
        simp [endBackslashes, backslash]
      rw [none_left]
      simp [backslash]

/-- A text without quotes is read through, and what follows it as what follows. -/
theorem read_append {text : List Char} (unquoted : '"' ∉ text) (oneLine : '\n' ∉ text) :
    ∀ waiting, ∃ front, ∀ rest, read waiting (text ++ rest) =
      (read (waitsAfter waiting text) rest).map fun r => (front ++ r.1, r.2) := by
  induction text with
  | nil =>
    intro waiting
    refine ⟨[], fun rest => ?_⟩
    simp [waitsAfter]
  | cons c text ih =>
    rw [List.mem_cons, not_or] at unquoted oneLine
    have later := ih unquoted.2 oneLine.2
    have inside : c ≠ '\n' := Ne.symm oneLine.1
    have noQuote : c ≠ '"' := Ne.symm unquoted.1
    intro waiting
    have next : waitsAfter waiting (c :: text) = waitsAfter (!waiting && c == '\\') text := rfl
    cases waiting with
    | true =>
      obtain ⟨front, reads⟩ := later false
      refine ⟨.escape c :: front, fun rest => ?_⟩
      rw [next, List.cons_append, read, if_neg inside, if_pos rfl, reads rest, Option.map_map]
      rfl
    | false =>
      by_cases backslash : c = '\\'
      · obtain ⟨front, reads⟩ := later true
        refine ⟨front, fun rest => ?_⟩
        rw [next, List.cons_append, read, if_neg inside, if_neg Bool.false_ne_true,
          if_pos backslash, reads rest, beq_iff_eq.mpr backslash]
        rfl
      · obtain ⟨front, reads⟩ := later false
        refine ⟨.plain c :: front, fun rest => ?_⟩
        rw [next, List.cons_append, read, if_neg inside, if_neg Bool.false_ne_true,
          if_neg backslash, if_neg noQuote, reads rest, beq_eq_false_iff_ne.mpr backslash,
          Option.map_map]
        rfl

/-- What the zero byte's escape is read as behind a text. -/
def ending (waiting : Bool) : List StringUnit :=
  if waiting then [.escape '\\', .plain '0'] else [.escape '0']

theorem read_ending (waiting : Bool) :
    read waiting "\\0\"".toList = some (ending waiting, []) := by
  cases waiting <;> decide

/-- The last byte is that of the last units, whatever stands before them. -/
theorem bytes_last {last : List StringUnit} {b : UInt8}
    (ends : ∀ code, (bytes code last).getLast? = some b) (front : List StringUnit) :
    ∀ code, (bytes code (front ++ last)).getLast? = some b := by
  induction front with
  | nil => exact ends
  | cons unit front ih =>
    intro code
    rw [List.cons_append]
    cases unit with
    | plain c =>
      rw [bytes]
      split
      · exact ih _
      · rw [List.getLast?_append, ih none]
        rfl
    | escape c =>
      rw [bytes, List.getLast?_append, ih (ofEscape c).2]
      rfl

theorem bytes_ending (waiting : Bool) (front : List StringUnit) :
    (bytes none (front ++ ending waiting)).getLast? = some (if waiting then 48 else 0) := by
  refine bytes_last (fun code => ?_) front none
  cases waiting with
  | true =>
    change (close code ++ [92] ++ [48]).getLast? = some 48
    rw [List.getLast?_append]
    rfl
  | false =>
    change (close code ++ [] ++ [0]).getLast? = some 0
    rw [List.getLast?_append]
    rfl

theorem readLine_ascii (text : String) :
    readLine (Instr.ascii text).text.toList = read false (text.toList ++ "\\0\"".toList) := by
  rw [Instr.text, Instr.line, AsmLine.toList_text_ascii, List.append_assoc, readLine]
  simp

end StringUnit

section
open StringUnit

/-- The line of a pooled text holds one string that ends with the line. It ends in a zero byte just
where its text ends in an even number of backslashes, once the quotes are dropped. -/
theorem string_ends_in_zero_iff (p : StringPool) (node : NodeId) {text : String}
    (oneLine : '\n' ∉ text.toList) :
    (p.addLiteral ⟨node, text⟩).data = (p.addPause text).data ∧
    ∃ line units,
      (p.addPause text).data.map Instr.text = [p.nextLabel ++ ":", line] ∧
      line = "\t.ascii \"" ++ StringPool.withoutQuotes text ++ "\\0\"" ∧
      readLine line.toList = some (units, []) ∧
      (units.getLast? = some (.escape '0') ↔
        Even (endBackslashes (StringPool.withoutQuotes text).toList)) ∧
      ((bytes none units).getLast? = some 0 ↔
        Even (endBackslashes (StringPool.withoutQuotes text).toList)) := by
  have unquoted : '"' ∉ (StringPool.withoutQuotes text).toList := by
    simp [StringPool.withoutQuotes]
  have clear : '\n' ∉ (StringPool.withoutQuotes text).toList := by
    simp [StringPool.withoutQuotes, oneLine]
  obtain ⟨front, reads⟩ := read_append unquoted clear false
  have parity := waitsAfter_iff (StringPool.withoutQuotes text).toList
  generalize waitsAfter false (StringPool.withoutQuotes text).toList = waiting at reads parity
  have even : Even (endBackslashes (StringPool.withoutQuotes text).toList) ↔ waiting = false := by
    rw [← Nat.not_odd_iff_even, ← parity, Bool.not_eq_true]
  have ascii : (Instr.ascii (StringPool.withoutQuotes text)).text =
      "\t.ascii \"" ++ StringPool.withoutQuotes text ++ "\\0\"" := by
    apply String.toList_injective
    rw [Instr.text, Instr.line, AsmLine.toList_text_ascii]
    simp
  refine ⟨rfl, _, front ++ ending waiting, ?_, rfl, ?_, ?_, ?_⟩
  · rw [← ascii]
    rfl
  · rw [← ascii, readLine_ascii, reads, read_ending]
    rfl
  · rw [even, List.getLast?_append]
    cases waiting <;> simp [ending]
  · rw [even, bytes_ending]
    cases waiting <;> simp

/-- An escaped quote and a backslash: with the quote dropped, two backslashes are left. -/
theorem string_ends_in_zero_escaped :
    '\n' ∉ "say \\\"\\".toList ∧ ∃ line units,
      (StringPool.addPause {} "say \\\"\\").data.map Instr.text = ["SL0:", line] ∧
      readLine line.toList = some (units, []) ∧
      units.getLast? = some (.escape '0') ∧ (bytes none units).getLast? = some 0 := by
  have oneLine : '\n' ∉ "say \\\"\\".toList := by decide
  obtain ⟨_, line, units, lines, _, reads, escape, zero⟩ :=
    string_ends_in_zero_iff {} ⟨0⟩ oneLine
  have even : Even (endBackslashes (StringPool.withoutQuotes "say \\\"\\").toList) := by
    decide
  exact ⟨oneLine, line, units, lines, reads, escape.mpr even, zero.mpr even⟩

/-- A text that ends in a backslash takes that of the zero byte, and its last byte is a digit. -/
theorem backslash_takes_zero :
    '\n' ∉ "C:\\".toList ∧ ∃ line units,
      (StringPool.addLiteral {} ⟨⟨0⟩, "C:\\"⟩).data.map Instr.text = ["SL0:", line] ∧
      readLine line.toList = some (units, []) ∧ units.getLast? ≠ some (.escape '0') ∧
      bytes none units = [67, 58, 92, 48] := by
  refine ⟨by decide, "\t.ascii \"C:\\\\0\"",
    [.plain 'C', .plain ':', .escape '\\', .plain '0'], by decide, ?_, by decide, by decide⟩
  decide

end

end Ia32Backend
