import Ia32Backend.Proofs.OutlineLines
import Ia32Backend.Proofs.VisibleTree

/-!
An outline shows everything of a tree but the annotations of literals, assignments, unary
expressions and calls. What an outline begins with tells the form, each form tells where its parts
end, and so two trees that look the same are the same up to these annotations, however their lines
go on. Literal floats are excepted: those that are no numbers all look the same.
-/
namespace Ia32Backend

/-! ### Outlines read from their start -/

/-- Whatever stands behind it, what is shown of a thing is told from what is shown of any other, up
to a view of the two. -/
def Legible {α β : Type} (shown : α → List OutlineLine) (view : α → β) (a : α) : Prop :=
  ∀ b rest more, shown a ++ rest = shown b ++ more → view a = view b ∧ rest = more

namespace Outline

theorem enclose_inj {depth : Nat} {opening other : String}
    {content inside rest more : List OutlineLine}
    (same : enclose depth opening content ++ rest = enclose depth other inside ++ more) :
    opening = other ∧ content ++ ⟨depth, ")"⟩ :: rest = inside ++ ⟨depth, ")"⟩ :: more := by
  simpa [enclose] using same

section
variable {α β : Type} {shown : α → List OutlineLine} {view : α → β} {items others : List α}
  {rest more : List OutlineLine}

theorem goes_on {stop : OutlineLine → Prop} {lines : List OutlineLine} {l : OutlineLine}
    (starts : ∃ first later, lines = first :: later ∧ ¬ stop first) (ends : stop l) :
    lines ++ more ≠ l :: rest := by
  obtain ⟨first, later, rfl, goesOn⟩ := starts
  intro same
  exact goesOn ((List.cons.inj same).1 ▸ ends)

/-- A list of things, up to a line with which none of them starts. -/
theorem listed_inj (stop : OutlineLine → Prop) {l m : OutlineLine}
    (each : ∀ a ∈ items, Legible shown view a)
    (starts : ∀ a, ∃ first later, shown a = first :: later ∧ ¬ stop first) (ends : stop l)
    (also : stop m)
    (same : items.flatMap shown ++ l :: rest = others.flatMap shown ++ m :: more) :
    items.map view = others.map view ∧ l :: rest = m :: more := by
  induction items generalizing others with
  | nil =>
    cases others with
    | nil => exact ⟨rfl, same⟩
    | cons b later =>
      rw [List.flatMap_cons, List.append_assoc] at same
      exact (goes_on (starts b) ends same.symm).elim
  | cons a items ih =>
    rw [List.flatMap_cons, List.append_assoc] at same
    cases others with
    | nil => exact (goes_on (starts a) also same).elim
    | cons b later =>
      obtain ⟨here, there⟩ := List.forall_mem_cons.mp each
      rw [List.flatMap_cons, List.append_assoc] at same
      obtain ⟨first, same⟩ := here b _ _ same
      obtain ⟨others, same⟩ := ih there same
      exact ⟨by rw [List.map_cons, List.map_cons, first, others], same⟩

/-- A list of things parted by commas, up to a line with which none of them starts. -/
theorem parted_inj (stop : OutlineLine → Prop) {depth : Nat} {l m : OutlineLine}
    (each : ∀ a ∈ items, Legible shown view a)
    (starts : ∀ a, ∃ first later, shown a = first :: later ∧ ¬ stop first)
    (apart : ¬ stop (comma depth)) (ends : stop l) (also : stop m)
    (same : parted depth shown items ++ l :: rest = parted depth shown others ++ m :: more) :
    items.map view = others.map view ∧ l :: rest = m :: more := by
  cases items with
  | nil =>
    cases others with
    | nil => exact ⟨rfl, same⟩
    | cons b later =>
      rw [parted, parted, List.append_assoc] at same
      exact (goes_on (starts b) ends same.symm).elim
  | cons a items =>
    rw [parted, List.append_assoc] at same
    cases others with
    | nil => exact (goes_on (starts a) also same).elim
    | cons b later =>
      obtain ⟨here, there⟩ := List.forall_mem_cons.mp each
      rw [parted, List.append_assoc] at same
      obtain ⟨first, same⟩ := here b _ _ same
      -- All but the first follow a comma, and so they are a list of things themselves.
      have led : ∀ a ∈ items, Legible (fun a => comma depth :: shown a) view a :=
        fun a member b rest more same => there a member b rest more (List.cons.inj same).2
      obtain ⟨others, same⟩ :=
        listed_inj stop led (fun a => ⟨_, shown a, rfl, apart⟩) ends also same
      exact ⟨by rw [List.map_cons, List.map_cons, first, others], same⟩

end

end Outline

/-! ### What an outline starts with -/

section
variable {α : Type} {shown : α → List OutlineLine} {name : α → String} {depth : Nat}
  (starts : ∀ a, ∃ text later, shown a = ⟨depth, text⟩ :: later ∧ Outline.word text = name a)
include starts

theorem Outline.word_inj {a b : α} {rest more : List OutlineLine}
    (same : shown a ++ rest = shown b ++ more) : name a = name b := by
  obtain ⟨text, later, here, first⟩ := starts a
  obtain ⟨other, behind, there, second⟩ := starts b
  rw [here, there, List.cons_append, List.cons_append, List.cons.injEq, OutlineLine.mk.injEq]
    at same
  rw [← first, ← second, same.1.2]

theorem Outline.word_inside (opens : ∀ a, name a ≠ ")") (a : α) :
    ∃ first later, shown a = first :: later ∧ ¬ first.text = ")" := by
  obtain ⟨text, later, here, first⟩ := starts a
  refine ⟨_, later, here, ?_⟩
  rintro rfl
  exact opens a first.symm

end

theorem Outline.comma_inside (depth : Nat) : ¬ (comma depth).text = ")" := by
  simp [comma]

/-! ### Expressions -/

/-- What the outline of an expression starts with. -/
def Expr.word : Expr → String
  | .ident _ _ => "Identifier"
  | .lit _ _ _ => "Literal"
  | .assign _ _ _ => "Assignment"
  | .unary _ _ _ => "Unary"
  | .binary _ _ _ _ => "Binary"
  | .call _ _ _ => "Call"

theorem Expr.outline_starts (depth : Nat) (e : Expr) :
    ∃ text later, e.outline depth = ⟨depth, text⟩ :: later ∧ Outline.word text = e.word := by
  cases e <;> exact ⟨_, _, rfl, by simp [Outline.word, word]⟩

theorem Expr.same_word {a b : Expr} {depth : Nat} {rest more : List OutlineLine}
    (same : a.outline depth ++ rest = b.outline depth ++ more) : a.word = b.word :=
  Outline.word_inj (outline_starts depth) same

theorem Expr.starts_inside (depth : Nat) (x : Expr) :
    ∃ first later, x.outline depth = first :: later ∧ ¬ first.text = ")" := by
  apply Outline.word_inside (outline_starts depth)
  intro x
  cases x <;> simp [word]

theorem Expr.floatFree_args {ty : ValueType} {callee : FunctionId} {args : List Expr}
    (free : (Expr.call ty callee args).FloatFree) : ∀ arg ∈ args, arg.FloatFree := by
  intro arg member kind node bits inside
  refine free kind node bits (List.mem_cons_of_mem _ ?_)
  rw [partsOf_eq]
  exact List.mem_flatMap.mpr ⟨arg, member, inside⟩

theorem Expr.outline_legible (e : Expr) :
    e.FloatFree → ∀ depth, Legible (outline depth) visible e := by
  induction e using Expr.args_induction with
  | ident ty v =>
    intro free depth b rest more same
    have words := same_word same
    cases b with
    | ident kind w =>
      obtain ⟨line, later⟩ := List.cons.inj same
      obtain ⟨rfl, rfl⟩ := identifier_text_inj (congrArg OutlineLine.text line)
      exact ⟨rfl, later⟩
    | _ => simp [word] at words
  | lit ty node x =>
    intro free depth b rest more same
    have words := same_word same
    have noFloat : ∀ bits, x ≠ .float bits := by
      rintro bits rfl
      exact free ty node bits List.mem_cons_self
    cases b with
    | lit kind other y =>
      obtain ⟨line, later⟩ := List.cons.inj same
      obtain ⟨rfl, rfl⟩ := literal_text_inj noFloat (congrArg OutlineLine.text line)
      exact ⟨rfl, later⟩
    | _ => simp [word] at words
  | assign ty target value ih =>
    intro free depth b rest more same
    have words := same_word same
    have freeValue : value.FloatFree := fun kind node bits inside =>
      free kind node bits (List.mem_cons_of_mem _ inside)
    cases b with
    | assign kind other inside =>
      obtain ⟨opening, content⟩ := Outline.enclose_inj same
      obtain ⟨inner, closing⟩ := ih freeValue (depth + 1) inside _ _ content
      have target_eq := VarId.text_inj ((String.append_right_inj _).mp opening)
      exact ⟨by rw [visible, visible, inner, target_eq], (List.cons.inj closing).2⟩
    | _ => simp [word] at words
  | unary ty op operand ih =>
    intro free depth b rest more same
    have words := same_word same
    have freeOperand : operand.FloatFree := fun kind node bits inside =>
      free kind node bits (List.mem_cons_of_mem _ inside)
    cases b with
    | unary kind other inside =>
      obtain ⟨opening, content⟩ := Outline.enclose_inj same
      obtain ⟨inner, closing⟩ := ih freeOperand (depth + 1) inside _ _ content
      have op_eq := UnaryOp.name_inj ((String.append_right_inj _).mp opening)
      exact ⟨by rw [visible, visible, inner, op_eq], (List.cons.inj closing).2⟩
    | _ => simp [word] at words
  | binary ty op left right first second =>
    intro free depth b rest more same
    have words := same_word same
    have freeLeft : left.FloatFree := fun kind node bits inside =>
      free kind node bits (List.mem_cons_of_mem _ (List.mem_append_left _ inside))
    have freeRight : right.FloatFree := fun kind node bits inside =>
      free kind node bits (List.mem_cons_of_mem _ (List.mem_append_right _ inside))
    cases b with
    | binary kind other leftB rightB =>
      obtain ⟨opening, content⟩ := Outline.enclose_inj same
      rw [List.append_assoc, List.append_assoc] at content
      obtain ⟨innerLeft, behind⟩ := first freeLeft (depth + 1) leftB _ _ content
      obtain ⟨innerRight, closing⟩ :=
        second freeRight (depth + 1) rightB _ _ (List.cons.inj behind).2
      obtain ⟨op_eq, ty_eq⟩ := binary_text_inj opening
      exact ⟨by rw [visible, visible, innerLeft, innerRight, op_eq, ty_eq],
        (List.cons.inj closing).2⟩
    | _ => simp [word] at words
  | call ty callee args each =>
    intro free depth b rest more same
    have words := same_word same
    cases b with
    | call kind other others =>
      obtain ⟨opening, content⟩ := Outline.enclose_inj same
      rw [outlineArgs_eq, outlineArgs_eq] at content
      have told : ∀ arg ∈ args, Legible (outline (depth + 1)) visible arg :=
        fun arg member => each arg member (floatFree_args free arg member) (depth + 1)
      obtain ⟨inner, closing⟩ := Outline.parted_inj (fun l => l.text = ")") told
        (starts_inside (depth + 1)) (Outline.comma_inside _) rfl rfl content
      have callee_eq := FunctionId.text_inj ((String.append_right_inj _).mp opening)
      exact ⟨by rw [visible, visible, visibleAll_eq, visibleAll_eq, inner, callee_eq],
        (List.cons.inj closing).2⟩
    | _ => simp [word] at words

theorem Expr.outlinePart_inj {e other : Expr} {depth : Nat} {label : String}
    {rest more : List OutlineLine} (free : e.FloatFree)
    (same : e.outlinePart depth label ++ rest = other.outlinePart depth label ++ more) :
    e.visible = other.visible ∧ rest = more := by
  obtain ⟨_, content⟩ := Outline.enclose_inj same
  obtain ⟨inner, closing⟩ := e.outline_legible free (depth + 1) other _ _ content
  exact ⟨inner, (List.cons.inj closing).2⟩

/-! ### Statements -/

theorem Stmt.floatFree_body {body : List Stmt} (free : ∀ e ∈ exprsOf body, e.FloatFree) :
    ∀ t ∈ body, t.FloatFree := by
  intro t member e stands
  rw [exprsOf_eq] at free
  exact free e (List.mem_flatMap.mpr ⟨t, member, stands⟩)

/-- What the outline of a statement starts with. -/
def Stmt.word : Stmt → String
  | .function _ => "Function"
  | .declare _ => "VariableDeclaration"
  | .block _ => "Block"
  | .ifThen _ _ => "If"
  | .whileLoop _ _ => "While"
  | .forLoop _ _ _ _ => "For"
  | .ret _ => "Return"
  | .eval _ => "ExpressionStmt"

theorem Stmt.outline_starts (depth : Nat) (s : Stmt) :
    ∃ text later, s.outline depth = ⟨depth, text⟩ :: later ∧ Outline.word text = s.word := by
  rcases s.shape with ⟨vars, rfl⟩ | ⟨id, body, nests⟩ | flat
  · exact ⟨_, _, rfl, by simp [Outline.word, word]⟩
  · cases nests <;> exact ⟨_, _, rfl, by simp [Outline.word, word]⟩
  · cases s with
    | function decl =>
      obtain ⟨symbol, params, ⟨id, body⟩⟩ := decl
      exact ⟨_, _, rfl, by simp [Outline.word, word]⟩
    | ret value => cases value <;> exact ⟨_, _, rfl, by simp [Outline.word, word]⟩
    | eval e => exact ⟨_, _, rfl, by simp [Outline.word, word]⟩
    | _ => exact flat.elim

theorem Stmt.same_word {s t : Stmt} {depth : Nat} {rest more : List OutlineLine}
    (same : s.outline depth ++ rest = t.outline depth ++ more) : s.word = t.word :=
  Outline.word_inj (outline_starts depth) same

theorem Stmt.starts_inside (depth : Nat) (x : Stmt) :
    ∃ first later, x.outline depth = first :: later ∧ ¬ first.text = ")" := by
  apply Outline.word_inside (outline_starts depth)
  intro x
  cases x <;> simp [word]

theorem Outline.block_inj {depth : Nat} {id other : BlockId} {body others : List Stmt}
    {rest more : List OutlineLine}
    (told : ∀ t ∈ body, Legible (Stmt.outline (depth + 1)) Stmt.visible t)
    (same : block depth id (Stmt.outlineBody (depth + 1) body) ++ rest =
      block depth other (Stmt.outlineBody (depth + 1) others) ++ more) :
    id = other ∧ Stmt.mapExprsOf Expr.visible body = Stmt.mapExprsOf Expr.visible others ∧
      rest = more := by
  obtain ⟨opening, content⟩ := enclose_inj same
  rw [Stmt.outlineBody_eq, Stmt.outlineBody_eq] at content
  obtain ⟨inner, closing⟩ := parted_inj (fun l => l.text = ")") told
    (Stmt.starts_inside (depth + 1)) (comma_inside _) rfl rfl content
  rw [Stmt.mapExprsOf_eq, Stmt.mapExprsOf_eq]
  exact ⟨BlockId.text_inj ((String.append_right_inj _).mp opening), inner,
    (List.cons.inj closing).2⟩

/-- Parameters, up to the block behind them. -/
theorem Outline.params_inj {depth : Nat} {params others : List VarId} {l m : OutlineLine}
    {rest more : List OutlineLine} (ends : word l.text = "Block") (also : word m.text = "Block")
    (same : Outline.params depth params ++ l :: rest = Outline.params depth others ++ m :: more) :
    params = others ∧ l :: rest = m :: more := by
  have starts : ∀ v : VarId, word ("FormalArgument(" ++ v.text ++ ")") ≠ "Block" := by
    simp [word]
  have told : ∀ v ∈ params,
      Legible (fun v => [(⟨depth, "FormalArgument(" ++ v.text ++ ")"⟩ : OutlineLine)]) id v := by
    intro v _ w rest more same
    obtain ⟨line, later⟩ := List.cons.inj same
    exact ⟨VarId.text_inj (enclosed_inj (congrArg OutlineLine.text line)), later⟩
  simp only [Outline.params, List.map_eq_flatMap] at same
  obtain ⟨vars, later⟩ := listed_inj (fun l => word l.text = "Block") told
    (fun v => ⟨_, _, rfl, starts v⟩) ends also same
  exact ⟨by simpa using vars, later⟩

/-- A condition and the block behind it. -/
theorem Outline.tested_inj {depth : Nat} {opening : String} {test other : Expr}
    {id inner : BlockId} {body inside : List Stmt} {rest more : List OutlineLine}
    (free : test.FloatFree) (told : ∀ t ∈ body, Legible (Stmt.outline (depth + 2)) Stmt.visible t)
    (same : enclose depth opening (test.outlinePart (depth + 1) "Condition" ++ comma (depth + 1) ::
        block (depth + 1) id (Stmt.outlineBody (depth + 2) body)) ++ rest =
      enclose depth opening (other.outlinePart (depth + 1) "Condition" ++ comma (depth + 1) ::
        block (depth + 1) inner (Stmt.outlineBody (depth + 2) inside)) ++ more) :
    test.visible = other.visible ∧ id = inner ∧
      Stmt.mapExprsOf Expr.visible body = Stmt.mapExprsOf Expr.visible inside ∧ rest = more := by
  obtain ⟨_, content⟩ := enclose_inj same
  rw [List.append_assoc, List.append_assoc] at content
  obtain ⟨test_eq, behind⟩ := Expr.outlinePart_inj free content
  obtain ⟨id_eq, body_eq, closing⟩ := block_inj told (List.cons.inj behind).2
  exact ⟨test_eq, id_eq, body_eq, (List.cons.inj closing).2⟩

/-- A step is told from the block that stands in its place where there is none. -/
theorem Outline.step_inj {depth : Nat} {e other : Option Expr} {l m : OutlineLine}
    {rest more : List OutlineLine} (free : ∀ x ∈ e, x.FloatFree) (ends : word l.text = "Block")
    (also : word m.text = "Block")
    (same : Outline.step depth e ++ l :: rest = Outline.step depth other ++ m :: more) :
    e.map Expr.visible = other.map Expr.visible ∧ l :: rest = m :: more := by
  have apart : ∀ k : OutlineLine, word k.text = "Block" → k.text ≠ "Step(" := by
    rintro k block step
    rw [step] at block
    exact absurd block (by decide)
  cases e with
  | none =>
    cases other with
    | none => exact ⟨rfl, same⟩
    | some y => exact (apart l ends (congrArg OutlineLine.text (List.cons.inj same).1)).elim
  | some x =>
    cases other with
    | none => exact (apart m also (congrArg OutlineLine.text (List.cons.inj same).1).symm).elim
    | some y =>
      obtain ⟨step_eq, behind⟩ := Expr.outlinePart_inj (free x rfl) same
      exact ⟨by rw [Option.map_some, Option.map_some, step_eq], behind⟩

theorem Stmt.outline_legible (s : Stmt) :
    s.FloatFree → ∀ depth, Legible (outline depth) visible s := by
  induction s using Stmt.inside_induction with
  | step s each =>
    intro free depth t rest more same
    have words := same_word same
    have told : ∀ body depth, s.inside = body → (∀ e ∈ exprsOf body, e.FloatFree) →
        ∀ t ∈ body, Legible (outline depth) visible t := by
      rintro _ depth rfl freeBody t member
      exact each t member (floatFree_body freeBody t member) depth
    cases s with
    | function decl =>
      obtain ⟨symbol, params, ⟨id, body⟩⟩ := decl
      cases t with
      | function decl =>
        obtain ⟨other, others, ⟨inner, inside⟩⟩ := decl
        obtain ⟨opening, content⟩ := Outline.enclose_inj same
        rw [List.append_assoc, List.append_assoc] at content
        obtain ⟨params_eq, behind⟩ := Outline.params_inj (by simp [Outline.word])
          (by simp [Outline.word]) content
        obtain ⟨id_eq, body_eq, closing⟩ :=
          Outline.block_inj (told body (depth + 2) rfl free) behind
        have symbol_eq := FunctionId.text_inj ((String.append_right_inj _).mp opening)
        refine ⟨?_, (List.cons.inj closing).2⟩
        rw [visible, visible, mapExprs, mapExprs, symbol_eq, params_eq, id_eq, body_eq]
      | _ => simp [word] at words
    | declare vars =>
      cases t with
      | declare others =>
        obtain ⟨line, later⟩ := List.cons.inj same
        have names := enclosed_inj (congrArg OutlineLine.text line)
        exact ⟨by rw [Outline.names_inj names], later⟩
      | _ => simp [word] at words
    | block b =>
      obtain ⟨id, body⟩ := b
      cases t with
      | block b =>
        obtain ⟨other, inside⟩ := b
        obtain ⟨id_eq, body_eq, later⟩ :=
          Outline.block_inj (told body (depth + 1) rfl free) same
        exact ⟨by rw [visible, visible, mapExprs, mapExprs, id_eq, body_eq], later⟩
      | _ => simp [word] at words
    | ifThen test b =>
      obtain ⟨id, body⟩ := b
      obtain ⟨freeTest, freeBody⟩ := List.forall_mem_cons.mp free
      cases t with
      | ifThen other b =>
        obtain ⟨inner, inside⟩ := b
        obtain ⟨test_eq, id_eq, body_eq, later⟩ :=
          Outline.tested_inj freeTest (told body (depth + 2) rfl freeBody) same
        exact ⟨by rw [visible, visible, mapExprs, mapExprs, test_eq, id_eq, body_eq], later⟩
      | _ => simp [word] at words
    | whileLoop test b =>
      obtain ⟨id, body⟩ := b
      obtain ⟨freeTest, freeBody⟩ := List.forall_mem_cons.mp free
      cases t with
      | whileLoop other b =>
        obtain ⟨inner, inside⟩ := b
        obtain ⟨test_eq, id_eq, body_eq, later⟩ :=
          Outline.tested_inj freeTest (told body (depth + 2) rfl freeBody) same
        exact ⟨by rw [visible, visible, mapExprs, mapExprs, test_eq, id_eq, body_eq], later⟩
      | _ => simp [word] at words
    | forLoop init test step b =>
      obtain ⟨id, body⟩ := b
      obtain ⟨freeInit, freeRest⟩ := List.forall_mem_cons.mp free
      obtain ⟨freeTest, freeRest⟩ := List.forall_mem_cons.mp freeRest
      obtain ⟨freeStep, freeBody⟩ := List.forall_mem_append.mp freeRest
      cases t with
      | forLoop first other next b =>
        obtain ⟨inner, inside⟩ := b
        rw [outline_forLoop, outline_forLoop] at same
        obtain ⟨_, content⟩ := Outline.enclose_inj same
        simp only [List.append_assoc] at content
        obtain ⟨init_eq, content⟩ := Expr.outlinePart_inj freeInit content
        obtain ⟨test_eq, content⟩ := Expr.outlinePart_inj freeTest content
        have freeStep : ∀ x ∈ step, x.FloatFree := fun x known =>
          freeStep x (Option.mem_toList.mpr known)
        obtain ⟨step_eq, content⟩ := Outline.step_inj freeStep (by simp [Outline.word])
          (by simp [Outline.word]) content
        obtain ⟨id_eq, body_eq, closing⟩ :=
          Outline.block_inj (told body (depth + 2) rfl freeBody) content
        refine ⟨?_, (List.cons.inj closing).2⟩
        rw [visible, visible, mapExprs, mapExprs, init_eq, test_eq, step_eq, id_eq, body_eq]
      | _ => simp [word] at words
    | ret value =>
      cases t with
      | ret other =>
        cases value with
        | none =>
          cases other with
          | none => exact ⟨rfl, (List.cons.inj same).2⟩
          | some e =>
            have texts : "Return" = "Return(" := congrArg OutlineLine.text (List.cons.inj same).1
            exact absurd texts (by decide)
        | some value =>
          cases other with
          | none =>
            have texts : "Return(" = "Return" := congrArg OutlineLine.text (List.cons.inj same).1
            exact absurd texts (by decide)
          | some e =>
            obtain ⟨value_eq, later⟩ := Expr.outlinePart_inj (free value List.mem_cons_self) same
            refine ⟨?_, later⟩
            rw [visible, visible, mapExprs, mapExprs, Option.map_some, Option.map_some, value_eq]
      | _ => simp [word] at words
    | eval e =>
      cases t with
      | eval other =>
        obtain ⟨expr_eq, later⟩ := Expr.outlinePart_inj (free e List.mem_cons_self) same
        exact ⟨by rw [visible, visible, mapExprs, mapExprs, expr_eq], later⟩
      | _ => simp [word] at words

/-! ### Blocks, functions and programs -/

theorem Block.outline_legible {b : Block} (free : b.FloatFree) (depth : Nat) :
    Legible (outline depth) visible b := by
  obtain ⟨id, body⟩ := b
  rintro ⟨other, inside⟩ rest more same
  obtain ⟨view, later⟩ := Stmt.outline_legible (.block ⟨id, body⟩) free depth
    (.block ⟨other, inside⟩) rest more same
  exact ⟨Stmt.block.inj view, later⟩

theorem FunctionDecl.outline_legible {f : FunctionDecl} (free : f.FloatFree) (depth : Nat) :
    Legible (outline depth) visible f := by
  obtain ⟨symbol, params, ⟨id, body⟩⟩ := f
  rintro ⟨other, others, ⟨inner, inside⟩⟩ rest more same
  obtain ⟨view, later⟩ := Stmt.outline_legible (.function ⟨symbol, params, ⟨id, body⟩⟩) free depth
    (.function ⟨other, others, ⟨inner, inside⟩⟩) rest more same
  exact ⟨Stmt.function.inj view, later⟩

theorem Program.outline_legible {p : Program} (free : p.FloatFree) (depth : Nat) :
    Legible (outline depth) visible p := by
  intro q rest more same
  obtain ⟨_, content⟩ := Outline.enclose_inj same
  have told : ∀ s ∈ p.body, Legible (Stmt.outline (depth + 1)) Stmt.visible s :=
    fun s member => s.outline_legible (Stmt.floatFree_body free s member) (depth + 1)
  obtain ⟨inner, closing⟩ := Outline.listed_inj (fun l => l.text = ")") told
    (Stmt.starts_inside (depth + 1)) rfl rfl content
  refine ⟨?_, (List.cons.inj closing).2⟩
  rw [visible, visible, mapExprs, mapExprs, Stmt.mapExprsOf_eq, Stmt.mapExprsOf_eq]
  exact congrArg Program.mk inner

/-! ### Texts -/

theorem Outline.render_inj {lines others : List OutlineLine} (clean : ∀ l ∈ lines, l.Clean)
    (also : ∀ l ∈ others, l.Clean) (same : render lines = render others) : lines = others := by
  rw [← readLines_render clean, same, readLines_render also]

theorem Legible.by_text {α : Type} {shown : α → List OutlineLine} {view : α → α} {a b : α}
    (legible : Legible shown view a) (clean : ∀ c, ∀ l ∈ shown c, l.Clean)
    (leaves : ∀ c, shown (view c) = shown c) :
    Outline.render (shown a) = Outline.render (shown b) ↔ view a = view b := by
  constructor
  · intro same
    have lines := Outline.render_inj (clean a) (clean b) same
    exact (legible b [] [] (by rw [lines])).1
  · intro same
    rw [← leaves a, same, leaves b]

/-- At every depth, two trees have the same text exactly if they agree up to the annotations that an
outline leaves out, provided that one of them holds no literal float. -/
theorem outline_faithful :
    (∀ (p q : Program) depth, p.FloatFree →
      (Outline.render (p.outline depth) = Outline.render (q.outline depth) ↔
        p.visible = q.visible)) ∧
    (∀ (f g : FunctionDecl) depth, f.FloatFree →
      (Outline.render (f.outline depth) = Outline.render (g.outline depth) ↔
        f.visible = g.visible)) ∧
    (∀ (b c : Block) depth, b.FloatFree →
      (Outline.render (b.outline depth) = Outline.render (c.outline depth) ↔
        b.visible = c.visible)) ∧
    (∀ (s t : Stmt) depth, s.FloatFree →
      (Outline.render (s.outline depth) = Outline.render (t.outline depth) ↔
        s.visible = t.visible)) ∧
    ∀ (d e : Expr) depth, d.FloatFree →
      (Outline.render (d.outline depth) = Outline.render (e.outline depth) ↔
        d.visible = e.visible) := by
  refine ⟨?_, ?_, ?_, ?_, ?_⟩
  · intro p q depth free
    exact (p.outline_legible free depth).by_text (fun c => c.outline_clean depth)
      fun c => c.outline_visible depth
  · intro f g depth free
    exact (f.outline_legible free depth).by_text (fun c => c.outline_clean depth)
      fun c => c.outline_visible depth
  · intro b c depth free
    exact (b.outline_legible free depth).by_text (fun c => c.outline_clean depth)
      fun c => c.outline_visible depth
  · intro s t depth free
    exact (s.outline_legible free depth).by_text (fun c => c.outline_clean depth)
      fun c => c.outline_visible depth
  · intro d e depth free
    exact (d.outline_legible free depth).by_text (fun c => c.outline_clean depth)
      fun c => c.outline_visible depth

/-- Returns a text that it assigns on the way. -/
def returning (ty : ValueType) (text : String) : Program :=
  ⟨[.function ⟨⟨0⟩, [⟨0⟩], ⟨⟨1⟩, [.ret (some (.assign ty ⟨0⟩ (.lit ty ⟨2⟩ (.string text))))]⟩⟩]⟩

theorem outline_faithful_lookalike :
    (returning .int "\")\n").FloatFree ∧
      Outline.render ((returning .int "\")\n").outline 3) =
        Outline.render ((returning .char "\")\n").outline 3) ∧
      Outline.render ((returning .int "\")\n").outline 3) ≠
        Outline.render ((returning .int "\")\n        )").outline 3) := by
  have free : (returning .int "\")\n").FloatFree := by
    simp [Program.FloatFree, Program.exprs, returning, Stmt.exprsOf, Stmt.exprs, Expr.FloatFree,
      Expr.parts]
  refine ⟨free, ?_, ?_⟩
  · exact (outline_faithful.1 _ _ 3 free).mpr rfl
  · apply mt (outline_faithful.1 _ _ 3 free).mp
    simp [Program.visible, Program.mapExprs, returning, Stmt.mapExprsOf, Stmt.mapExprs,
      Expr.visible]

end Ia32Backend
