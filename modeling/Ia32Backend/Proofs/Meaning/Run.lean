import Ia32Backend.Proofs.Meaning.Value

/-!
Runs of a source program. A run changes the variables of the current function and reports what the
runtime is asked for. It stops early on a division that has no quotient, or when its fuel is spent.
Where the language leaves a word open, such as a variable that was not assigned yet, the word is the
next one of a given list, so a claim for some list is a claim for some choice of open words.
-/
namespace Ia32Backend

/-- What a program asks of the runtime. -/
inductive Event where
  | started
  | paused
  deriving DecidableEq, Repr

structure World where
  /-- The word a variable holds. Of a character only the low byte counts. -/
  store : VarId → Word
  /-- Oldest first. -/
  events : List Event

inductive Stop where
  /-- A quotient that does not exist or does not fit. -/
  | divide
  | outOfFuel
  /-- A tree without a meaning, or no word left to choose. -/
  | undefined
  deriving DecidableEq, Repr

/-- How a run ends, and in which world. -/
abbrev Outcome (α : Type) := Except Stop α × World

abbrev Run := ExceptT Stop (StateT World (StateM (List Word)))

namespace Run

/-- The outcome of a run with the given open words, and the words it did not use. -/
def outcome {α : Type} (m : Run α) (w : World) (choices : List Word) : Outcome α × List Word :=
  m w choices

def choose : Run Word := fun w choices =>
  match choices with
  | [] => ((.error .undefined, w), [])
  | v :: rest => ((.ok v, w), rest)

def setVariable (v : VarId) (x : Word) : Run Unit :=
  modify fun w => { w with store := fun u => if u = v then x else w.store u }

def report (e : Event) : Run Unit := modify fun w => { w with events := w.events ++ [e] }

section
variable {α β : Type} (w : World) (choices : List Word)

theorem outcome_bind (m : Run α) (f : α → Run β) :
    outcome (m >>= f) w choices =
      match outcome m w choices with
      | ((.ok a, w'), rest) => outcome (f a) w' rest
      | ((.error stop, w'), rest) => ((.error stop, w'), rest) := by
  simp only [outcome, bind, ExceptT.bind, ExceptT.mk, StateT.bind, ExceptT.bindCont]
  rcases m w choices with ⟨⟨result, w'⟩, rest⟩
  cases result <;> rfl

end

end Run

end Ia32Backend
