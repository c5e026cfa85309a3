import Ia32Backend.Proofs.OutlineParts
import Ia32Backend.Proofs.TreeExprs

/-!
Trees without the annotations of literals, assignments, unary expressions and calls. An outline does
not show these annotations, so a tree has the same outline without them.
-/
namespace Ia32Backend

mutual

/-- The expression without the annotations that an outline leaves out. -/
def Expr.visible : Expr → Expr
  | .ident ty v => .ident ty v
  | .lit _ node x => .lit .int node x
  | .assign _ target value => .assign .int target value.visible
  | .unary _ op operand => .unary .int op operand.visible
  | .binary ty op left right => .binary ty op left.visible right.visible
  | .call _ callee args => .call .int callee (Expr.visibleAll args)
termination_by structural e => e

def Expr.visibleAll : List Expr → List Expr
  | [] => []
  | arg :: rest => arg.visible :: Expr.visibleAll rest
termination_by structural args => args

end

theorem Expr.visibleAll_eq (args : List Expr) : visibleAll args = args.map visible := by
  induction args with
  | nil => rfl
  | cons arg rest ih => rw [visibleAll, ih, List.map_cons]

def Stmt.visible (s : Stmt) : Stmt := s.mapExprs Expr.visible
def Block.visible (b : Block) : Block := ⟨b.id, Stmt.mapExprsOf Expr.visible b.body⟩
def FunctionDecl.visible (f : FunctionDecl) : FunctionDecl := ⟨f.symbol, f.params, f.body.visible⟩
def Program.visible (p : Program) : Program := p.mapExprs Expr.visible

/-- No literal in the expression is a float. -/
def Expr.FloatFree (e : Expr) : Prop := ∀ ty node bits, .lit ty node (.float bits) ∉ e.parts

def Stmt.FloatFree (s : Stmt) : Prop := ∀ e ∈ s.exprs, e.FloatFree
def Block.FloatFree (b : Block) : Prop := ∀ e ∈ Stmt.exprsOf b.body, e.FloatFree
def FunctionDecl.FloatFree (f : FunctionDecl) : Prop := f.body.FloatFree
def Program.FloatFree (p : Program) : Prop := ∀ e ∈ p.exprs, e.FloatFree

/-! ### Outlines without annotations -/

theorem Outline.parted_map {α : Type} {depth : Nat} {shown : α → List OutlineLine} {h : α → α}
    {items : List α} (same : ∀ a ∈ items, shown (h a) = shown a) :
    parted depth shown (items.map h) = parted depth shown items := by
  simpa using map_parted (f := id) (g := id) rfl fun a member => congrArg _ (same a member)

theorem Expr.outline_visible (e : Expr) : ∀ depth, e.visible.outline depth = e.outline depth := by
  induction e using Expr.args_induction with
  | ident ty v => exact fun _ => rfl
  | lit ty node x => exact fun _ => rfl
  | assign ty target value ih => simp only [visible, outline, ih, implies_true]
  | unary ty op operand ih => simp only [visible, outline, ih, implies_true]
  | binary ty op left right first second =>
    simp only [visible, outline, first, second, implies_true]
  | call ty callee args each =>
    intro depth
    have inner : Outline.parted (depth + 1) (outline (depth + 1)) (args.map visible) =
        Outline.parted (depth + 1) (outline (depth + 1)) args :=
      Outline.parted_map fun arg member => each arg member (depth + 1)
    rw [visible, outline, outline, outlineArgs_eq, outlineArgs_eq, visibleAll_eq, inner]

theorem Expr.outlinePart_visible (depth : Nat) (label : String) (e : Expr) :
    e.visible.outlinePart depth label = e.outlinePart depth label := by
  rw [outlinePart, outlinePart, outline_visible]

theorem Stmt.outline_visible (s : Stmt) : ∀ depth, s.visible.outline depth = s.outline depth := by
  induction s using Stmt.inside_induction with
  | step s each =>
    intro depth
    have inner : ∀ body depth, s.inside = body →
        outlineBody depth (mapExprsOf Expr.visible body) = outlineBody depth body := by
      rintro _ depth rfl
      rw [outlineBody_eq, outlineBody_eq, mapExprsOf_eq]
      exact Outline.parted_map fun t member => each t member depth
    cases s with
    | function decl =>
      obtain ⟨symbol, params, ⟨id, body⟩⟩ := decl
      simp only [visible, mapExprs, outline, inner body (depth + 2) rfl]
    | declare vars => rfl
    | block b =>
      obtain ⟨id, body⟩ := b
      simp only [visible, mapExprs, outline, inner body (depth + 1) rfl]
    | ifThen test b =>
      obtain ⟨id, body⟩ := b
      simp only [visible, mapExprs, outline, Expr.outlinePart_visible, inner body (depth + 2) rfl]
    | whileLoop test b =>
      obtain ⟨id, body⟩ := b
      simp only [visible, mapExprs, outline, Expr.outlinePart_visible, inner body (depth + 2) rfl]
    | forLoop init test step b =>
      obtain ⟨id, body⟩ := b
      cases step <;>
        simp only [visible, mapExprs, outline, Option.map, Expr.outlinePart_visible,
          inner body (depth + 2) rfl]
    | ret value =>
      cases value with
      | none => rfl
      | some value => exact value.outlinePart_visible depth "Return"
    | eval e => exact e.outlinePart_visible depth "ExpressionStmt"

theorem Block.outline_visible (b : Block) (depth : Nat) :
    b.visible.outline depth = b.outline depth := by
  obtain ⟨id, body⟩ := b
  exact Stmt.outline_visible (.block ⟨id, body⟩) depth

theorem FunctionDecl.outline_visible (f : FunctionDecl) (depth : Nat) :
    f.visible.outline depth = f.outline depth := by
  obtain ⟨symbol, params, ⟨id, body⟩⟩ := f
  exact Stmt.outline_visible (.function ⟨symbol, params, ⟨id, body⟩⟩) depth

theorem Program.outline_visible (p : Program) (depth : Nat) :
    p.visible.outline depth = p.outline depth := by
  rw [visible, mapExprs, outline, outline, Stmt.mapExprsOf_eq, List.flatMap_map]
  exact congrArg _ (List.flatMap_congr fun s _ => s.outline_visible (depth + 1))

end Ia32Backend
