import Ia32Backend.Proofs.OutlineFaithful
import Ia32Backend.Proofs.TreeForm

/-!
What depth does to an outline. A tree that is shown deeper has the same text with a wider margin
before each line, every line has an end, and how many lines there are follows from the form of the
tree: nothing that is written on a line breaks it.
-/
namespace Ia32Backend

/-! ### Margins of a text -/

namespace Outline

/-- Characters with a margin before every line, the last one included if it has no end. Whether a
line starts at the first of them is told by `fresh`. -/
def withMargin (margin : List Char) : Bool → List Char → List Char
  | _, [] => []
  | fresh, c :: rest =>
      (if fresh then margin else []) ++ c :: withMargin margin (c == '\n') rest

/-- A text with spaces before each of its lines. -/
def indented (spaces : Nat) (text : String) : String :=
  String.ofList (withMargin (List.replicate spaces ' ') true text.toList)

/-- How many line feeds a text has. -/
def lineCount (text : String) : Nat := text.toList.count '\n'

section
variable {margin line rest : List Char}

theorem withMargin_line (unbroken : '\n' ∉ line) (fresh : Bool) :
    withMargin margin fresh (line ++ '\n' :: rest) =
      (if fresh then margin else []) ++ line ++ '\n' :: withMargin margin true rest := by
  induction line generalizing fresh with
  | nil => simp [withMargin]
  | cons c line ih =>
    have stays : (c == '\n') = false :=
      beq_eq_false_iff_ne.mpr (List.ne_of_not_mem_cons unbroken).symm
    rw [List.cons_append, withMargin, stays, ih (List.not_mem_of_not_mem_cons unbroken)]
    simp

theorem withMargin_lines {lines : List (List Char)} (unbroken : ∀ line ∈ lines, '\n' ∉ line) :
    withMargin margin true (lines.flatMap (· ++ ['\n'])) =
      (lines.map (margin ++ ·)).flatMap (· ++ ['\n']) := by
  induction lines with
  | nil => rfl
  | cons line rest ih =>
    obtain ⟨here, there⟩ := List.forall_mem_cons.mp unbroken
    have split : (line :: rest).flatMap (· ++ ['\n']) =
        line ++ '\n' :: rest.flatMap (· ++ ['\n']) := by simp
    rw [split, withMargin_line here, ih there]
    simp

end

example : indented 2 "If(\n\n)" = "  If(\n  \n  )" := rfl

end Outline

/-! ### Deeper lines -/

/-- The same line, deeper. -/
def OutlineLine.deeper (k : Nat) (l : OutlineLine) : OutlineLine := ⟨l.depth + k, l.text⟩

theorem OutlineLine.chars_deeper (k : Nat) (l : OutlineLine) :
    (l.deeper k).chars = List.replicate (2 * k) ' ' ++ l.chars := by
  rw [chars, chars, deeper, ← List.append_assoc, List.replicate_append_replicate, Nat.mul_add,
    Nat.add_comm]

namespace Outline

theorem render_deeper {lines : List OutlineLine} (clean : ∀ l ∈ lines, l.Clean) (k : Nat) :
    render (lines.map (OutlineLine.deeper k)) = indented (2 * k) (render lines) := by
  apply String.toList_injective
  rw [indented, String.toList_ofList, toList_render, toList_render,
    withMargin_lines (chars_unbroken clean), List.map_map, List.map_map]
  exact congrArg _ (List.map_congr_left fun l _ => l.chars_deeper k)

theorem lineCount_render {lines : List OutlineLine} (clean : ∀ l ∈ lines, l.Clean) :
    lineCount (render lines) = lines.length := by
  rw [lineCount, toList_render, List.flatMap_map]
  induction lines with
  | nil => rfl
  | cons l rest ih =>
    obtain ⟨here, there⟩ := List.forall_mem_cons.mp clean
    have margin : '\n' ∉ l.chars := chars_unbroken clean _ (List.mem_map_of_mem List.mem_cons_self)
    rw [List.flatMap_cons, List.count_append, List.count_append, ih there,
      List.count_eq_zero_of_not_mem margin, List.length_cons, List.count_singleton_self]
    omega

theorem render_ends {lines : List OutlineLine} (filled : lines ≠ []) :
    (render lines).toList.getLast? = some '\n' := by
  rw [← List.dropLast_concat_getLast filled, toList_render]
  simp

/-! ### Deeper trees -/

section
variable {k depth : Nat} {opening : String} {content : List OutlineLine}

@[simp] theorem deeper_comma : (comma depth).deeper k = comma (depth + k) := rfl

@[simp] theorem map_enclose : (enclose depth opening content).map (OutlineLine.deeper k) =
    enclose (depth + k) opening (content.map (OutlineLine.deeper k)) := by
  simp [enclose, OutlineLine.deeper]

@[simp] theorem map_block {id : BlockId} : (block depth id content).map (OutlineLine.deeper k) =
    block (depth + k) id (content.map (OutlineLine.deeper k)) := map_enclose

@[simp] theorem map_params (vars : List VarId) :
    (params depth vars).map (OutlineLine.deeper k) = params (depth + k) vars := by
  simp [params, OutlineLine.deeper]

theorem parted_deeper {α : Type} {shown deep : α → List OutlineLine} {items : List α}
    (each : ∀ a ∈ items, deep a = (shown a).map (OutlineLine.deeper k)) :
    parted (depth + k) deep items = (parted depth shown items).map (OutlineLine.deeper k) := by
  simpa using map_parted (f := id) (h := id) deeper_comma.symm (by simpa using each)

end

end Outline

open Outline

section
variable (k : Nat)

theorem Expr.outline_deeper (e : Expr) :
    ∀ depth, e.outline (depth + k) = (e.outline depth).map (OutlineLine.deeper k) := by
  induction e using Expr.args_induction with
  | ident ty v => exact fun _ => rfl
  | lit ty node x => exact fun _ => rfl
  | assign ty target value ih =>
    intro depth
    simp [outline, Nat.add_right_comm depth k 1, ih]
  | unary ty op operand ih =>
    intro depth
    simp [outline, Nat.add_right_comm depth k 1, ih]
  | binary ty op left right first second =>
    intro depth
    simp [outline, Nat.add_right_comm depth k 1, first, second]
  | call ty callee args each =>
    intro depth
    have inner : parted (depth + 1 + k) (outline (depth + 1 + k)) args =
        (parted (depth + 1) (outline (depth + 1)) args).map (OutlineLine.deeper k) :=
      parted_deeper fun arg member => each arg member (depth + 1)
    rw [outline, outline, outlineArgs_eq, outlineArgs_eq, map_enclose, Nat.add_right_comm, inner]

theorem Expr.outlinePart_deeper (e : Expr) (depth : Nat) (label : String) :
    e.outlinePart (depth + k) label = (e.outlinePart depth label).map (OutlineLine.deeper k) := by
  simp [outlinePart, Nat.add_right_comm depth k 1, outline_deeper]

theorem Outline.step_deeper (depth : Nat) (e : Option Expr) :
    step (depth + k) e = (step depth e).map (OutlineLine.deeper k) := by
  cases e with
  | none => rfl
  | some e => exact e.outlinePart_deeper k depth "Step"

theorem Stmt.outline_deeper (s : Stmt) :
    ∀ depth, s.outline (depth + k) = (s.outline depth).map (OutlineLine.deeper k) := by
  induction s using Stmt.inside_induction with
  | step s each =>
    intro depth
    have inner : ∀ body depth, s.inside = body →
        outlineBody (depth + k) body = (outlineBody depth body).map (OutlineLine.deeper k) := by
      rintro _ depth rfl
      rw [outlineBody_eq, outlineBody_eq]
      exact parted_deeper fun t member => each t member depth
    cases s with
    | function decl =>
      obtain ⟨symbol, params, ⟨id, body⟩⟩ := decl
      simp [outline, Nat.add_right_comm depth k, inner body (depth + 2) rfl]
    | declare vars => rfl
    | block b =>
      obtain ⟨id, body⟩ := b
      simp [outline, Nat.add_right_comm depth k, inner body (depth + 1) rfl]
    | ifThen test b =>
      obtain ⟨id, body⟩ := b
      simp [outline, Nat.add_right_comm depth k, test.outlinePart_deeper,
        inner body (depth + 2) rfl]
    | whileLoop test b =>
      obtain ⟨id, body⟩ := b
      simp [outline, Nat.add_right_comm depth k, test.outlinePart_deeper,
        inner body (depth + 2) rfl]
    | forLoop init test step b =>
      obtain ⟨id, body⟩ := b
      simp [outline_forLoop, Nat.add_right_comm depth k, Expr.outlinePart_deeper, step_deeper,
        inner body (depth + 2) rfl]
    | ret value =>
      cases value with
      | none => rfl
      | some value => exact value.outlinePart_deeper k depth "Return"
    | eval e => exact e.outlinePart_deeper k depth "ExpressionStmt"

theorem Block.outline_deeper (b : Block) (depth : Nat) :
    b.outline (depth + k) = (b.outline depth).map (OutlineLine.deeper k) := by
  rw [← Stmt.outline_block, ← Stmt.outline_block, Stmt.outline_deeper]

theorem FunctionDecl.outline_deeper (f : FunctionDecl) (depth : Nat) :
    f.outline (depth + k) = (f.outline depth).map (OutlineLine.deeper k) := by
  rw [← Stmt.outline_function, ← Stmt.outline_function, Stmt.outline_deeper]

theorem Program.outline_deeper (p : Program) (depth : Nat) :
    p.outline (depth + k) = (p.outline depth).map (OutlineLine.deeper k) := by
  have inner : p.body.flatMap (Stmt.outline (depth + 1 + k)) =
      (p.body.flatMap (Stmt.outline (depth + 1))).map (OutlineLine.deeper k) := by
    rw [List.map_flatMap]
    exact List.flatMap_congr fun s _ => s.outline_deeper k (depth + 1)
  rw [outline, outline, map_enclose, Nat.add_right_comm, inner]

end

/-! ### Texts -/

/-- How the text of a tree follows the depth at which it is shown and the form of the tree. A step
down puts two spaces before every line. Every line has an end. Trees of one form have equally many
lines, at whatever depths. -/
structure Indents {α : Type} (shown : Nat → α → List OutlineLine) (form : α → α) : Prop where
  shifted : ∀ a n k, render (shown (n + k) a) = indented (2 * k) (render (shown n a))
  ended : ∀ a n, (render (shown n a)).toList.getLast? = some '\n'
  counted : ∀ a b m n, form a = form b →
    lineCount (render (shown m a)) = lineCount (render (shown n b))

theorem Indents.of_lines {α : Type} {shown : Nat → α → List OutlineLine} {form : α → α}
    (clean : ∀ a n, ∀ l ∈ shown n a, l.Clean) (filled : ∀ a n, shown n a ≠ [])
    (deeper : ∀ k a n, shown (n + k) a = (shown n a).map (OutlineLine.deeper k))
    (alike : ∀ a n, margins (shown n (form a)) = margins (shown n a)) : Indents shown form where
  shifted a n k := by rw [deeper, render_deeper (clean a n)]
  ended a n := render_ends (filled a n)
  counted a b m n same := by
    -- The lines of a tree are as many as those of its form at depth zero.
    have count : ∀ a n, lineCount (render (shown n a)) = (margins (shown 0 (form a))).length := by
      intro a n
      rw [lineCount_render (clean a n), ← Nat.zero_add n, deeper, List.length_map, alike, margins,
        List.length_map]
    rw [count, count, same]

theorem Expr.outline_ne_nil (e : Expr) (depth : Nat) : e.outline depth ≠ [] := by
  obtain ⟨text, later, starts, _⟩ := e.outline_starts depth
  simp [starts]

theorem Stmt.outline_ne_nil (s : Stmt) (depth : Nat) : s.outline depth ≠ [] := by
  obtain ⟨text, later, starts, _⟩ := s.outline_starts depth
  simp [starts]

theorem Outline.enclose_ne_nil (depth : Nat) (opening : String) (content : List OutlineLine) :
    enclose depth opening content ≠ [] := by
  simp [enclose]

/-- The text of a program, function, block, statement or expression at a greater depth is its text
at a lesser one behind a margin, its lines end, and their number follows from the form. -/
theorem outline_indents :
    Indents Program.outline Program.form ∧ Indents FunctionDecl.outline FunctionDecl.form ∧
      Indents Block.outline Block.form ∧ Indents Stmt.outline Stmt.form ∧
      Indents Expr.outline Expr.form :=
  ⟨.of_lines Program.outline_clean (fun _ _ => enclose_ne_nil _ _ _) Program.outline_deeper
      Program.margins_form,
    .of_lines FunctionDecl.outline_clean (fun _ _ => enclose_ne_nil _ _ _)
      FunctionDecl.outline_deeper FunctionDecl.margins_form,
    .of_lines Block.outline_clean (fun _ _ => enclose_ne_nil _ _ _) Block.outline_deeper
      Block.margins_form,
    .of_lines Stmt.outline_clean Stmt.outline_ne_nil Stmt.outline_deeper Stmt.margins_form,
    .of_lines Expr.outline_clean Expr.outline_ne_nil Expr.outline_deeper Expr.margins_form⟩

/-- Passes a text and a variable on. -/
def passing (ty : ValueType) (callee index : Nat) (x : Literal) : Stmt :=
  .eval (.call ty ⟨callee⟩ [.lit ty ⟨index⟩ x, .ident ty ⟨index⟩])

theorem outline_indents_line_breaks :
    (passing .int 3 12 (.string "a\nb\n")).form = (passing .char 0 7 (.char '\n')).form ∧
      lineCount (render ((passing .int 3 12 (.string "a\nb\n")).outline 5)) =
        lineCount (render ((passing .char 0 7 (.char '\n')).outline 2)) ∧
      lineCount (render ((passing .char 0 7 (.char '\n')).outline 2)) = 7 := by
  have same : (passing .int 3 12 (.string "a\nb\n")).form =
      (passing .char 0 7 (.char '\n')).form := rfl
  have seven : lineCount (render ((passing .char 0 7 (.char '\n')).outline 2)) = 7 :=
    lineCount_render (Stmt.outline_clean _ 2)
  exact ⟨same, outline_indents.2.2.2.1.counted _ _ 5 2 same, seven⟩

end Ia32Backend
