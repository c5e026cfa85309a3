import Ia32Backend.Asm.Att

/-!
The lines of a compiled unit, in order. A listing only grows at its end.
-/
namespace Ia32Backend

structure Listing where
  lines : List String := []
  deriving DecidableEq, Repr

namespace Listing

def emit (l : Listing) (line : String) : Listing := ⟨l.lines ++ [line]⟩

def append (l : Listing) (code : List Instr) : Listing := ⟨l.lines ++ code.map Instr.text⟩

def ofCode (code : List Instr) : Listing := ⟨code.map Instr.text⟩

/-- The separator follows every line, the last one too. -/
def render (separator : String) (l : Listing) : String :=
  String.join (l.lines.map (· ++ separator))

theorem append_append (l : Listing) (a b : List Instr) :
    (l.append a).append b = l.append (a ++ b) := by
  simp [append]

theorem append_singleton (l : Listing) (i : Instr) : l.append [i] = l.emit i.text := rfl

theorem ofCode_eq_append (code : List Instr) : ofCode code = append {} code := rfl

end Listing

end Ia32Backend
