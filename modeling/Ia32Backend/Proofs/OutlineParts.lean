import Mathlib.Data.List.Basic
import Ia32Backend.Tree.Outline

/-!
Parts of an outline. Arguments of a call and statements of a block are things parted by commas, and
the step of a loop is shown or left out. A statement holds statements directly, and a claim about
what a statement shows goes from these to the statement.
-/
namespace Ia32Backend

namespace Outline

/-- Things parted by commas. -/
def parted {α : Type} (depth : Nat) (shown : α → List OutlineLine) : List α → List OutlineLine
  | [] => []
  | a :: rest => shown a ++ rest.flatMap fun b => comma depth :: shown b

/-- The step of a loop, if it has one. -/
def step (depth : Nat) : Option Expr → List OutlineLine
  | none => []
  | some e => e.outlinePart depth "Step"

/-- Two lists of things look alike, line by line, if the things do one by one and the commas do. -/
theorem map_parted {α β γ : Type} {f g : OutlineLine → γ} {m n : Nat} {h : α → β}
    {shown : β → List OutlineLine} {other : α → List OutlineLine} {items : List α}
    (commas : f (comma m) = g (comma n))
    (each : ∀ a ∈ items, (shown (h a)).map f = (other a).map g) :
    (parted m shown (items.map h)).map f = (parted n other items).map g := by
  cases items with
  | nil => rfl
  | cons a rest =>
    obtain ⟨here, there⟩ := List.forall_mem_cons.mp each
    rw [List.map_cons, parted, parted, List.map_append, List.map_append, here, List.flatMap_map,
      List.map_flatMap, List.map_flatMap]
    refine congrArg _ (List.flatMap_congr fun b member => ?_)
    rw [List.map_cons, List.map_cons, commas, there b member]

end Outline

theorem Expr.outlineArgs_eq (depth : Nat) (args : List Expr) :
    outlineArgs depth args = Outline.parted depth (outline depth) args := by
  induction args with
  | nil => rfl
  | cons arg rest ih =>
    rw [outlineArgs, ih]
    cases rest <;> simp [Outline.parted]

theorem Stmt.outlineBody_eq (depth : Nat) (body : List Stmt) :
    outlineBody depth body = Outline.parted depth (outline depth) body := by
  induction body with
  | nil => rfl
  | cons s rest ih =>
    rw [outlineBody, ih]
    cases rest <;> simp [Outline.parted]

theorem Stmt.outline_forLoop (depth : Nat) (init test : Expr) (step : Option Expr) (id : BlockId)
    (body : List Stmt) : (Stmt.forLoop init test step ⟨id, body⟩).outline depth =
      Outline.enclose depth "For("
        (init.outlinePart (depth + 1) "Init" ++ test.outlinePart (depth + 1) "Condition" ++
          Outline.step (depth + 1) step ++
          Outline.block (depth + 1) id (outlineBody (depth + 2) body)) := by
  cases step <;> rfl

/-- Statements that stand directly in a statement, those of a nested function included. -/
def Stmt.inside : Stmt → List Stmt
  | .function ⟨_, _, ⟨_, body⟩⟩ => body
  | .block ⟨_, body⟩ => body
  | .ifThen _ ⟨_, body⟩ => body
  | .whileLoop _ ⟨_, body⟩ => body
  | .forLoop _ _ _ ⟨_, body⟩ => body
  | _ => []

mutual

/-- Induction on a statement: it may use the claim for those that stand directly in it. -/
theorem Stmt.inside_induction {motive : Stmt → Prop}
    (step : ∀ s : Stmt, (∀ t ∈ s.inside, motive t) → motive s) : ∀ s : Stmt, motive s
  | .function ⟨_, _, ⟨_, body⟩⟩ => step _ (Stmt.each_inside_induction step body)
  | .block ⟨_, body⟩ => step _ (Stmt.each_inside_induction step body)
  | .ifThen _ ⟨_, body⟩ => step _ (Stmt.each_inside_induction step body)
  | .whileLoop _ ⟨_, body⟩ => step _ (Stmt.each_inside_induction step body)
  | .forLoop _ _ _ ⟨_, body⟩ => step _ (Stmt.each_inside_induction step body)
  | .declare vars => step (.declare vars) (fun _ member => (List.not_mem_nil member).elim)
  | .ret value => step (.ret value) (fun _ member => (List.not_mem_nil member).elim)
  | .eval e => step (.eval e) (fun _ member => (List.not_mem_nil member).elim)

theorem Stmt.each_inside_induction {motive : Stmt → Prop}
    (step : ∀ s : Stmt, (∀ t ∈ s.inside, motive t) → motive s) :
    ∀ body : List Stmt, ∀ t ∈ body, motive t
  | [] => fun _ member => (List.not_mem_nil member).elim
  | first :: rest => fun t member =>
    (List.mem_cons.mp member).elim (fun same => same ▸ Stmt.inside_induction step first)
      (Stmt.each_inside_induction step rest t)

end

end Ia32Backend
