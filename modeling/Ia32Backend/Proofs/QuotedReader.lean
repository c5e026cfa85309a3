import Mathlib.Tactic.SplitIfs
import Ia32Backend.Text.Quoted

/-!
A reader of quoted text. Every character that stands for itself is no backslash, and what follows a
backslash tells how far the escape goes, so quoted characters and strings determine the text. A
quoted text stays on its line.
-/
namespace Ia32Backend.Quoted

def hexValue (digit : Char) : Nat :=
  if digit.isDigit then digit.toNat - 48 else digit.toNat - 87

def readHex (digits : List Char) : Nat := digits.foldl (fun n digit => 16 * n + hexValue digit) 0

/-- The first character of a quoted text, and the rest. -/
def next? : List Char → Option (Char × List Char)
  | '\\' :: '0' :: rest => some ('\x00', rest)
  | '\\' :: 't' :: rest => some ('\t', rest)
  | '\\' :: 'r' :: rest => some ('\r', rest)
  | '\\' :: 'n' :: rest => some ('\n', rest)
  | '\\' :: 'u' :: _ :: rest =>
      some (Char.ofNat (readHex (rest.takeWhile (· ≠ '\x7d'))),
        (rest.dropWhile (· ≠ '\x7d')).drop 1)
  | '\\' :: c :: rest => some (c, rest)
  | c :: rest => some (c, rest)
  | [] => none

theorem hexValue_digitChar : ∀ n < 16, hexValue n.digitChar = n := by decide

theorem readHex_toDigits (n : Nat) : readHex (Nat.toDigits 16 n) = n := by
  induction n using Nat.strongRecOn with
  | ind n ih =>
    rw [Nat.toDigits_eq_if (by decide)]
    split
    · rename_i small
      simp [readHex, hexValue_digitChar n small]
    · have before := ih (n / 16) (by omega)
      rw [readHex] at before
      rw [readHex, List.foldl_append, before]
      simp only [List.foldl_cons, List.foldl_nil, hexValue_digitChar _ (Nat.mod_lt n (by decide))]
      omega

theorem mem_toDigits {c : Char} {n : Nat} (member : c ∈ Nat.toDigits 16 n) :
    ∃ d, c = Nat.digitChar d := by
  induction n using Nat.strongRecOn with
  | ind n ih =>
    rw [Nat.toDigits_eq_if (by decide)] at member
    split at member
    · exact ⟨n, List.mem_singleton.mp member⟩
    · rcases List.mem_append.mp member with before | last
      · exact ih (n / 16) (by omega) before
      · exact ⟨n % 16, List.mem_singleton.mp last⟩

theorem toDigits_ne {c d : Char} {n : Nat} (member : c ∈ Nat.toDigits 16 n)
    (other : d ∈ ['\x7d', '\n', ' ']) : c ≠ d := by
  obtain ⟨m, rfl⟩ := mem_toDigits member
  simp only [List.mem_cons, List.not_mem_nil, or_false] at other
  rcases other with rfl | rfl | rfl <;> exact Nat.digitChar_ne _ (by decide)

theorem next?_codePoint (c : Char) (rest : List Char) :
    next? (codePoint c ++ rest) = some (c, rest) := by
  have inside : ∀ d ∈ Nat.toDigits 16 c.toNat, decide (d ≠ '\x7d') = true := fun d member =>
    decide_eq_true (toDigits_ne member (by decide))
  have split : codePoint c ++ rest =
      '\\' :: 'u' :: '\x7b' :: (Nat.toDigits 16 c.toNat ++ '\x7d' :: rest) := by
    simp [codePoint]
  rw [split, next?, List.takeWhile_append_of_pos inside, List.dropWhile_append_of_pos inside]
  simp [readHex_toDigits]

/-- Marks that enclose a text. -/
def IsMark (mark : Char) : Prop := mark = '"' ∨ mark = '\''

theorem next?_plain {c : Char} (plain : c ≠ '\\') (rest : List Char) :
    next? (c :: rest) = some (c, rest) := by
  unfold next?
  split <;> simp_all

theorem next?_escape {mark : Char} (quote : IsMark mark) (c : Char) (rest : List Char) :
    next? (escape mark c ++ rest) = some (c, rest) := by
  unfold escape
  split_ifs with nul tab ret feed marked hidden
  · subst nul
    rfl
  · subst tab
    rfl
  · subst ret
    rfl
  · subst feed
    rfl
  · rcases marked with rfl | rfl
    · rfl
    · rcases quote with rfl | rfl <;> rfl
  · exact next?_codePoint c rest
  · exact next?_plain (not_or.mp marked).1 rest

/-- Nothing but its own quotation begins like that of a character. -/
theorem escape_inj {mark : Char} (quote : IsMark mark) {c d : Char} {rest more : List Char}
    (same : escape mark c ++ rest = escape mark d ++ more) : c = d ∧ rest = more := by
  have read := congrArg next? same
  rw [next?_escape quote, next?_escape quote, Option.some.injEq, Prod.mk.injEq] at read
  exact read

theorem escape_ne_nil (mark c : Char) : escape mark c ≠ [] := by
  unfold escape codePoint
  split_ifs <;> simp

theorem flatMap_escape_inj {mark : Char} (quote : IsMark mark) {a b : List Char}
    (same : a.flatMap (escape mark) = b.flatMap (escape mark)) : a = b := by
  induction a generalizing b with
  | nil =>
    cases b with
    | nil => rfl
    | cons d later =>
      rw [List.flatMap_nil, List.flatMap_cons, eq_comm, List.append_eq_nil_iff] at same
      exact (escape_ne_nil mark d same.1).elim
  | cons c rest ih =>
    cases b with
    | nil =>
      rw [List.flatMap_nil, List.flatMap_cons, List.append_eq_nil_iff] at same
      exact (escape_ne_nil mark c same.1).elim
    | cons d later =>
      rw [List.flatMap_cons, List.flatMap_cons] at same
      obtain ⟨rfl, others⟩ := escape_inj quote same
      rw [ih others]

theorem enclose_inj {mark : Char} (quote : IsMark mark) {a b : List Char}
    (same : enclose mark a = enclose mark b) : a = b := by
  have chars : mark :: a.flatMap (escape mark) ++ [mark] =
      mark :: b.flatMap (escape mark) ++ [mark] := by
    simpa [enclose] using congrArg String.toList same
  exact flatMap_escape_inj quote (List.cons.inj (List.append_cancel_right chars)).2

theorem char_inj {c d : Char} (same : char c = char d) : c = d :=
  List.singleton_inj.mp (enclose_inj (.inr rfl) same)

theorem string_inj {a b : String} (same : string a = string b) : a = b :=
  String.toList_injective (enclose_inj (.inl rfl) same)

theorem escape_stays {mark : Char} (quote : IsMark mark) (c : Char) : '\n' ∉ escape mark c := by
  have digits : '\n' ∉ Nat.toDigits 16 c.toNat := fun member => toDigits_ne member (by decide) rfl
  unfold escape codePoint
  split_ifs with nul tab ret feed marked hidden
  · decide
  · decide
  · decide
  · decide
  · rcases marked with rfl | rfl
    · decide
    · rcases quote with rfl | rfl <;> decide
  · simp [digits]
  · simp [Ne.symm feed]

theorem enclose_stays {mark : Char} (quote : IsMark mark) (text : List Char) :
    '\n' ∉ (enclose mark text).toList := by
  have mark_ne : mark ≠ '\n' := by rcases quote with rfl | rfl <;> decide
  simp [enclose, escape_stays quote, mark_ne.symm]

end Ia32Backend.Quoted
