import Ia32Backend.Code.Stmt

/-!
Names made of a stem and a number. Where no stem holds a digit, a name tells its stem and its
number, so names are pairwise distinct as soon as the pairs are.
-/
namespace Ia32Backend

def numbered (stem : String) (n : Nat) : String := stem ++ toString n

/-- Stems of the names that the code generator makes up itself. -/
def generatedStems : List String :=
  ["SL", "L_endif", "L_for", "L_endfor", "L_while", "L_endwhile"]

/-- Whether a name could be one that the code generator makes up. -/
def Generated (name : String) : Prop := ∃ stem ∈ generatedStems, ∃ n, name = numbered stem n

def NoDigits (stem : String) : Prop := ∀ c ∈ stem.toList, c.isDigit = false

theorem generatedStems_noDigits : ∀ stem ∈ generatedStems, NoDigits stem := by
  simp [generatedStems, NoDigits]

theorem toString_digits (n : Nat) : ∀ c ∈ (toString n).toList, c.isDigit = true := by
  intro c member
  rw [Nat.toString_eq_repr, Nat.toList_repr] at member
  exact Nat.isDigit_of_mem_toDigits (by decide) (by decide) member

theorem toString_injective {m n : Nat} (same : (toString m).toList = (toString n).toList) :
    m = n := by
  rw [Nat.toString_eq_repr, Nat.toList_repr, Nat.toString_eq_repr, Nat.toList_repr] at same
  have parsed := congrArg (fun digits => Nat.ofDigitChars 10 digits 0) same
  simpa using parsed

theorem dropWhile_stem {stem : List Char} {digits : List Char}
    (clear : ∀ c ∈ stem, c.isDigit = false) (number : ∀ c ∈ digits, c.isDigit = true) :
    (stem ++ digits).dropWhile (fun c => !c.isDigit) = digits := by
  induction stem with
  | nil =>
    cases digits with
    | nil => rfl
    | cons d rest => simp [number d List.mem_cons_self]
  | cons c rest ih =>
    rw [List.cons_append, List.dropWhile_cons, if_pos (by simp [clear c List.mem_cons_self])]
    exact ih fun d member => clear d (List.mem_cons_of_mem c member)

theorem numbered_injective {s t : String} {m n : Nat} (clearS : NoDigits s) (clearT : NoDigits t)
    (same : numbered s m = numbered t n) : s = t ∧ m = n := by
  have chars : s.toList ++ (toString m).toList = t.toList ++ (toString n).toList := by
    simpa [numbered] using congrArg String.toList same
  have digits : (toString m).toList = (toString n).toList := by
    have dropped := congrArg (List.dropWhile fun c => !c.isDigit) chars
    rwa [dropWhile_stem clearS (toString_digits m), dropWhile_stem clearT (toString_digits n)]
      at dropped
  rw [digits] at chars
  exact ⟨String.toList_injective (List.append_cancel_right chars), toString_injective digits⟩

end Ia32Backend
