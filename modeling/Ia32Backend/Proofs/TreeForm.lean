import Ia32Backend.Proofs.OutlineParts
import Ia32Backend.Proofs.Uses

/-!
The form of a tree: which kinds of nodes it has and how they are nested, without any names, types,
operators and literals. Trees of one form have outlines with the same margins, line by line.
-/
namespace Ia32Backend

mutual

/-- The expression with one variable, type, operator and literal in every place. -/
def Expr.form : Expr → Expr
  | .ident _ _ => .ident .int ⟨0⟩
  | .lit _ _ _ => .lit .int ⟨0⟩ .null
  | .assign _ _ value => .assign .int ⟨0⟩ value.form
  | .unary _ _ operand => .unary .int .not operand.form
  | .binary _ _ left right => .binary .int .plus left.form right.form
  | .call _ _ args => .call .int ⟨0⟩ (Expr.formAll args)
termination_by structural e => e

def Expr.formAll : List Expr → List Expr
  | [] => []
  | arg :: rest => arg.form :: Expr.formAll rest
termination_by structural args => args

end

theorem Expr.formAll_eq (args : List Expr) : formAll args = args.map form := by
  induction args with
  | nil => rfl
  | cons arg rest ih => rw [formAll, ih, List.map_cons]

mutual

/-- The statement with the forms of its expressions. Parameters are still counted, since each has a
line of its own, and declared variables are not. -/
def Stmt.form : Stmt → Stmt
  | .function ⟨_, params, ⟨_, body⟩⟩ =>
      .function ⟨⟨0⟩, params.map fun _ => ⟨0⟩, ⟨⟨0⟩, Stmt.formAll body⟩⟩
  | .declare _ => .declare []
  | .block ⟨_, body⟩ => .block ⟨⟨0⟩, Stmt.formAll body⟩
  | .ifThen test ⟨_, body⟩ => .ifThen test.form ⟨⟨0⟩, Stmt.formAll body⟩
  | .whileLoop test ⟨_, body⟩ => .whileLoop test.form ⟨⟨0⟩, Stmt.formAll body⟩
  | .forLoop init test step ⟨_, body⟩ =>
      .forLoop init.form test.form (step.map Expr.form) ⟨⟨0⟩, Stmt.formAll body⟩
  | .ret value => .ret (value.map Expr.form)
  | .eval e => .eval e.form
termination_by structural s => s

def Stmt.formAll : List Stmt → List Stmt
  | [] => []
  | s :: rest => s.form :: Stmt.formAll rest
termination_by structural body => body

end

theorem Stmt.formAll_eq (body : List Stmt) : formAll body = body.map form := by
  induction body with
  | nil => rfl
  | cons s rest ih => rw [formAll, ih, List.map_cons]

def Block.form (b : Block) : Block := ⟨⟨0⟩, Stmt.formAll b.body⟩
def FunctionDecl.form (f : FunctionDecl) : FunctionDecl :=
  ⟨⟨0⟩, f.params.map fun _ => ⟨0⟩, f.body.form⟩
def Program.form (p : Program) : Program := ⟨Stmt.formAll p.body⟩

theorem Stmt.form_block (b : Block) : (Stmt.block b).form = .block b.form := by
  obtain ⟨id, body⟩ := b
  rw [form]
  rfl

theorem Stmt.form_function (f : FunctionDecl) : (Stmt.function f).form = .function f.form := by
  obtain ⟨symbol, params, ⟨id, body⟩⟩ := f
  rw [form]
  rfl

/-! ### Margins -/

namespace Outline

/-- How deep the lines stand, one after the other. -/
def margins (lines : List OutlineLine) : List Nat := lines.map OutlineLine.depth

section
variable {depth : Nat} {opening : String} {content lines more : List OutlineLine}

@[simp] theorem margins_append : margins (lines ++ more) = margins lines ++ margins more :=
  List.map_append

@[simp] theorem margins_comma : margins (comma depth :: lines) = depth :: margins lines := rfl

@[simp] theorem margins_enclose :
    margins (enclose depth opening content) = depth :: margins content ++ [depth] := by
  simp [enclose, margins]

@[simp] theorem margins_block {id : BlockId} :
    margins (block depth id content) = depth :: margins content ++ [depth] := margins_enclose

@[simp] theorem margins_params (params : List VarId) :
    margins (Outline.params depth params) = List.replicate params.length depth := by
  simp [margins, Outline.params, Function.comp_def, List.map_const']

end

end Outline

open Outline

theorem Expr.margins_form (e : Expr) :
    ∀ depth, margins (e.form.outline depth) = margins (e.outline depth) := by
  induction e using Expr.args_induction with
  | ident ty v => simp [form, outline, margins]
  | lit ty node x => simp [form, outline, margins]
  | assign ty target value ih => simp [form, outline, ih]
  | unary ty op operand ih => simp [form, outline, ih]
  | binary ty op left right first second => simp [form, outline, first, second]
  | call ty callee args each =>
    intro depth
    have inner : margins (parted (depth + 1) (outline (depth + 1)) (args.map form)) =
        margins (parted (depth + 1) (outline (depth + 1)) args) :=
      map_parted rfl fun arg member => each arg member (depth + 1)
    rw [form, outline, outline, margins_enclose, margins_enclose, outlineArgs_eq, outlineArgs_eq,
      formAll_eq, inner]

theorem Expr.margins_part (e : Expr) (depth : Nat) (label : String) :
    margins (e.form.outlinePart depth label) = margins (e.outlinePart depth label) := by
  simp [outlinePart, margins_form]

theorem Outline.margins_step (depth : Nat) (e : Option Expr) :
    margins (step depth (e.map Expr.form)) = margins (step depth e) := by
  cases e with
  | none => rfl
  | some e => exact e.margins_part depth "Step"

theorem Stmt.margins_form (s : Stmt) :
    ∀ depth, margins (s.form.outline depth) = margins (s.outline depth) := by
  induction s using Stmt.inside_induction with
  | step s each =>
    intro depth
    have inner : ∀ body depth, s.inside = body →
        margins (outlineBody depth (formAll body)) = margins (outlineBody depth body) := by
      rintro _ depth rfl
      rw [outlineBody_eq, outlineBody_eq, formAll_eq]
      exact map_parted rfl fun t member => each t member depth
    cases s with
    | function decl =>
      obtain ⟨symbol, params, ⟨id, body⟩⟩ := decl
      simp [form, outline, inner body (depth + 2) rfl]
    | declare vars => simp [form, outline, margins]
    | block b =>
      obtain ⟨id, body⟩ := b
      simp [form, outline, inner body (depth + 1) rfl]
    | ifThen test b =>
      obtain ⟨id, body⟩ := b
      simp [form, outline, Expr.margins_part, inner body (depth + 2) rfl]
    | whileLoop test b =>
      obtain ⟨id, body⟩ := b
      simp [form, outline, Expr.margins_part, inner body (depth + 2) rfl]
    | forLoop init test step b =>
      obtain ⟨id, body⟩ := b
      simp [form, outline_forLoop, Expr.margins_part, margins_step, inner body (depth + 2) rfl]
    | ret value =>
      cases value with
      | none => rfl
      | some value => exact value.margins_part depth "Return"
    | eval e => exact e.margins_part depth "ExpressionStmt"

theorem Block.margins_form (b : Block) (depth : Nat) :
    margins (b.form.outline depth) = margins (b.outline depth) := by
  rw [← Stmt.outline_block, ← Stmt.outline_block, ← Stmt.form_block]
  exact Stmt.margins_form _ depth

theorem FunctionDecl.margins_form (f : FunctionDecl) (depth : Nat) :
    margins (f.form.outline depth) = margins (f.outline depth) := by
  rw [← Stmt.outline_function, ← Stmt.outline_function, ← Stmt.form_function]
  exact Stmt.margins_form _ depth

theorem Program.margins_form (p : Program) (depth : Nat) :
    margins (p.form.outline depth) = margins (p.outline depth) := by
  have inner : margins ((p.body.map Stmt.form).flatMap (Stmt.outline (depth + 1))) =
      margins (p.body.flatMap (Stmt.outline (depth + 1))) := by
    simp only [margins, List.flatMap_map, List.map_flatMap]
    exact List.flatMap_congr fun s _ => s.margins_form (depth + 1)
  rw [form, outline, outline, margins_enclose, margins_enclose, Stmt.formAll_eq, inner]

end Ia32Backend
