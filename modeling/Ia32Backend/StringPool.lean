import Ia32Backend.Asm.Instr
import Ia32Backend.SymbolTable

/-!
String data under the labels `SL0`, `SL1`, and so on. A label belongs to a literal node, not to a
text, so equal texts are stored as often as they are added. Adding a node again gives it a new
label and leaves the old data in place.
-/
namespace Ia32Backend

structure StringPool where
  /-- Newest first. -/
  labels : List (NodeId × String) := []
  pause : Option String := none
  count : Nat := 0
  deriving DecidableEq, Repr

namespace StringPool

/-- A text that was added: its label, the lines that define it and the pool that knows it. -/
structure Added where
  label : String
  data : List Instr
  pool : StringPool
  deriving DecidableEq, Repr

def nextLabel (p : StringPool) : String := "SL" ++ toString p.count

/-- Double quotes are dropped from the text, nothing else is changed. -/
def withoutQuotes (text : String) : String := String.ofList (text.toList.filter (· ≠ '"'))

def definition (label text : String) : List Instr := [.label label, .ascii (withoutQuotes text)]

def addLiteral (p : StringPool) (l : StringLiteral) : Added where
  label := p.nextLabel
  data := definition p.nextLabel l.text
  pool := { p with labels := (l.node, p.nextLabel) :: p.labels, count := p.count + 1 }

/-- The pause string has a label of its own, outside the literal nodes. -/
def addPause (p : StringPool) (command : String) : Added where
  label := p.nextLabel
  data := definition p.nextLabel command
  pool := { p with pause := some p.nextLabel, count := p.count + 1 }

def labelAt (p : StringPool) (node : NodeId) : Except Fault String :=
  match p.labels.lookup node with
  | some label => .ok label
  | none => .error (.literalNotPooled node)

def pauseLabel (p : StringPool) : Except Fault String :=
  match p.pause with
  | some label => .ok label
  | none => .error .pauseNotPooled

def addLiterals (p : StringPool) : List StringLiteral → List Instr × StringPool
  | [] => ([], p)
  | l :: rest =>
      let added := p.addLiteral l
      let tail := addLiterals added.pool rest
      (added.data ++ tail.1, tail.2)

/-- The data of a unit: all literals in order, the pause string after them. -/
def ofLiterals (literals : List StringLiteral) (pauseText : String) : List Instr × StringPool :=
  let user := addLiterals {} literals
  let added := user.2.addPause pauseText
  (user.1 ++ added.data, added.pool)

theorem labelAt_addLiteral (p : StringPool) (l : StringLiteral) :
    (p.addLiteral l).pool.labelAt l.node = .ok (p.addLiteral l).label := by
  simp [addLiteral, labelAt]

theorem labelAt_addLiteral_of_ne (p : StringPool) (l : StringLiteral) {node : NodeId}
    (h : node ≠ l.node) : (p.addLiteral l).pool.labelAt node = p.labelAt node := by
  simp [addLiteral, labelAt, List.lookup_cons, beq_eq_false_iff_ne.2 h]

theorem labelAt_addPause (p : StringPool) (command : String) (node : NodeId) :
    (p.addPause command).pool.labelAt node = p.labelAt node := rfl

theorem pauseLabel_addPause (p : StringPool) (command : String) :
    (p.addPause command).pool.pauseLabel = .ok (p.addPause command).label := rfl

theorem pauseLabel_addLiteral (p : StringPool) (l : StringLiteral) :
    (p.addLiteral l).pool.pauseLabel = p.pauseLabel := rfl

end StringPool

end Ia32Backend
