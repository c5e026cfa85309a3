import Ia32Backend.Proofs.OutlineParts
import Ia32Backend.Proofs.QuotedReader
import Ia32Backend.Proofs.TextDecoding

/-!
Lines of an outline. A rendered outline tells its lines and their depths, since no text on a line
starts with a blank or holds a line feed. On a line, a number ends where no digit follows and the
name of an operator at its colon, and quoted literals read back.
-/
namespace Ia32Backend

section
variable {p : Char → Bool} {a b rest more : List Char}

/-- Characters of a kind, up to the first of another. -/
theorem span_boundary (inside : ∀ c ∈ a, p c = true) (boundary : ∀ c ∈ rest.head?, p c = false) :
    (a ++ rest).takeWhile p = a ∧ (a ++ rest).dropWhile p = rest := by
  rw [List.takeWhile_append_of_pos inside, List.dropWhile_append_of_pos inside]
  cases rest with
  | nil => simp
  | cons c rest => simp [boundary c rfl]

theorem append_inj_boundary (insideA : ∀ c ∈ a, p c = true) (insideB : ∀ c ∈ b, p c = true)
    (boundary : ∀ c ∈ rest.head?, p c = false) (other : ∀ c ∈ more.head?, p c = false)
    (same : a ++ rest = b ++ more) : a = b ∧ rest = more := by
  have first := span_boundary insideA boundary
  have second := span_boundary insideB other
  rw [same] at first
  exact ⟨first.1.symm.trans second.1, first.2.symm.trans second.2⟩

end

/-! ### Rendered lines -/

/-- Told apart from its margin and from the lines around it. -/
structure OutlineLine.Clean (l : OutlineLine) : Prop where
  stays : '\n' ∉ l.text.toList
  starts : ∀ c ∈ l.text.toList.head?, c ≠ ' '

namespace OutlineLine

def chars (l : OutlineLine) : List Char := List.replicate (2 * l.depth) ' ' ++ l.text.toList

/-- A line taken apart from its margin. -/
def read (line : List Char) : OutlineLine :=
  ⟨(line.takeWhile (· = ' ')).length / 2, String.ofList (line.dropWhile (· = ' '))⟩

theorem read_chars {l : OutlineLine} (clean : l.Clean) : read l.chars = l := by
  obtain ⟨depth, text⟩ := l
  have margin : ∀ c ∈ List.replicate (2 * depth) ' ', decide (c = ' ') = true := fun c member =>
    decide_eq_true (List.eq_of_mem_replicate member)
  have ends := span_boundary margin fun c first => decide_eq_false (clean.starts c first)
  rw [read, OutlineLine.chars, ends.1, ends.2]
  simp

end OutlineLine

namespace Outline

theorem toList_render (lines : List OutlineLine) :
    (render lines).toList = (lines.map OutlineLine.chars).flatMap (· ++ ['\n']) := by
  simp [render, OutlineLine.render, OutlineLine.chars, List.flatMap_map]

theorem chars_unbroken {lines : List OutlineLine} (clean : ∀ l ∈ lines, l.Clean) :
    ∀ line ∈ lines.map OutlineLine.chars, '\n' ∉ line := by
  intro line member
  obtain ⟨l, inside, rfl⟩ := List.mem_map.mp member
  simp [OutlineLine.chars, (clean l inside).stays]

/-- The lines of a text. -/
def readLines (text : String) : List OutlineLine :=
  (text.toList.splitOn '\n').dropLast.map OutlineLine.read

theorem readLines_render {lines : List OutlineLine} (clean : ∀ l ∈ lines, l.Clean) :
    readLines (render lines) = lines := by
  have each : lines.map (OutlineLine.read ∘ OutlineLine.chars) = lines.map id :=
    List.map_congr_left fun l member => OutlineLine.read_chars (clean l member)
  rw [readLines, toList_render, splitOn_lines (chars_unbroken clean), List.dropLast_concat,
    List.map_map, each, List.map_id]

end Outline

/-! ### Numbers and names -/

theorem toString_append_inj {m n : Nat} {rest more : List Char}
    (boundary : ∀ c ∈ rest.head?, c.isDigit = false) (other : ∀ c ∈ more.head?, c.isDigit = false)
    (same : (toString m).toList ++ rest = (toString n).toList ++ more) : m = n ∧ rest = more := by
  obtain ⟨digits, later⟩ := append_inj_boundary (toString_digits m) (toString_digits n) boundary
    other same
  exact ⟨toString_injective digits, later⟩

/-- Starts with no digit. -/
def NoDigitFirst (text : String) : Prop := ∀ c ∈ text.toList.head?, c.isDigit = false

theorem numbered_append_inj {stem : String} {m n : Nat} {rest more : String}
    (boundary : NoDigitFirst rest) (other : NoDigitFirst more)
    (same : numbered stem m ++ rest = numbered stem n ++ more) : m = n ∧ rest = more := by
  have chars : stem.toList ++ ((toString m).toList ++ rest.toList) =
      stem.toList ++ ((toString n).toList ++ more.toList) := by
    simpa [numbered] using congrArg String.toList same
  obtain ⟨index, later⟩ := toString_append_inj boundary other (List.append_cancel_left chars)
  exact ⟨index, String.toList_injective later⟩

section
variable {rest more : String}

theorem VarId.text_append_inj {v w : VarId} (boundary : NoDigitFirst rest)
    (other : NoDigitFirst more) (same : v.text ++ rest = w.text ++ more) : v = w ∧ rest = more := by
  obtain ⟨index, later⟩ := numbered_append_inj boundary other same
  exact ⟨congrArg VarId.mk index, later⟩

theorem NodeId.text_append_inj {n m : NodeId} (boundary : NoDigitFirst rest)
    (other : NoDigitFirst more) (same : n.text ++ rest = m.text ++ more) : n = m ∧ rest = more := by
  obtain ⟨index, later⟩ := numbered_append_inj boundary other same
  exact ⟨congrArg NodeId.mk index, later⟩

end

theorem numbered_index_inj {stem : String} {m n : Nat} (same : numbered stem m = numbered stem n) :
    m = n :=
  toString_injective (congrArg String.toList ((String.append_right_inj stem).mp same))

theorem VarId.text_inj {v w : VarId} (same : v.text = w.text) : v = w :=
  congrArg VarId.mk (numbered_index_inj same)

theorem BlockId.text_inj {b c : BlockId} (same : b.text = c.text) : b = c :=
  congrArg BlockId.mk (numbered_index_inj same)

theorem FunctionId.text_inj {f g : FunctionId} (same : f.text = g.text) : f = g :=
  congrArg FunctionId.mk (numbered_index_inj same)

theorem ValueType.name_inj {a b : ValueType} (same : a.name = b.name) : a = b := by
  cases a <;> cases b <;> first | rfl | exact absurd same (by decide)

theorem UnaryOp.name_inj {a b : UnaryOp} (same : a.name = b.name) : a = b := by
  cases a <;> cases b <;> first | rfl | exact absurd same (by decide)

theorem BinaryOp.name_inj {a b : BinaryOp} (same : a.name = b.name) : a = b := by
  cases a <;> cases b <;> first | rfl | exact absurd same (by decide)

/-- The name of an operator, up to a colon. -/
theorem BinaryOp.name_append_inj {a b : BinaryOp} {rest more : String}
    (same : a.name ++ (": " ++ rest) = b.name ++ (": " ++ more)) : a = b ∧ rest = more := by
  have clear : ∀ op : BinaryOp, ∀ c ∈ op.name.toList, decide (c ≠ ':') = true := by
    intro op
    cases op <;> simp [name]
  have chars : a.name.toList ++ (':' :: ' ' :: rest.toList) =
      b.name.toList ++ (':' :: ' ' :: more.toList) := by
    simpa using congrArg String.toList same
  obtain ⟨name, later⟩ := append_inj_boundary (clear a) (clear b) (by simp) (by simp) chars
  exact ⟨name_inj (String.toList_injective name), String.toList_injective (by simpa using later)⟩

namespace Outline

/-- The variables' texts of a list. -/
def readNames (chars : List Char) : List String := if chars = [] then [] else readArgs chars

theorem readNames_names (vars : List VarId) :
    readNames (names vars).toList = vars.map VarId.text := by
  cases vars with
  | nil => rfl
  | cons v rest =>
    have clear : ∀ word ∈ (v :: rest).map VarId.text, ',' ∉ word.toList := by
      intro word member
      obtain ⟨w, _, rfl⟩ := List.mem_map.mp member
      intro comma
      rw [VarId.text, String.toList_append, List.mem_append] at comma
      rcases comma with stem | digit
      · exact absurd stem (by decide)
      · exact absurd (toString_digits w.index ',' digit) (by decide)
    have filled : (names (v :: rest)).toList ≠ [] := by
      cases rest <;> simp [names, VarId.text]
    rw [readNames, if_neg filled]
    exact readArgs_intercalate (by simp) clear

theorem names_inj {vars others : List VarId} (same : names vars = names others) :
    vars = others := by
  have read := congrArg (fun text => readNames text.toList) same
  simp only [readNames_names] at read
  exact List.map_injective_iff.mpr (fun _ _ => VarId.text_inj) read

end Outline

/-! ### Literals -/

/-- What stands between an opening and a closing parenthesis. -/
theorem enclosed_inj {opening a b : String} (same : opening ++ a ++ ")" = opening ++ b ++ ")") :
    a = b :=
  (String.append_right_inj opening).mp ((String.append_left_inj ")").mp same)

theorem Literal.text_inj {x y : Literal} (noFloat : ∀ bits, x ≠ .float bits)
    (same : x.text = y.text) : x = y := by
  have chars := congrArg String.toList same
  cases x with
  | float bits => exact (noFloat bits rfl).elim
  | int n =>
    cases y with
    | int m =>
      have digits : n.toInt.repr = m.toInt.repr := enclosed_inj same
      have value := congrArg (fun text => readInt text.toList) digits
      simp only [readInt_repr] at value
      rw [Int32.toInt_inj.mp value]
    | _ => simp [text] at chars
  | char c =>
    cases y with
    | char d => rw [Quoted.char_inj (enclosed_inj same)]
    | _ => simp [text] at chars
  | bool a =>
    cases y with
    | bool b => cases a <;> cases b <;> first | rfl | exact absurd same (by decide)
    | _ => simp [text] at chars
  | null =>
    cases y with
    | null => rfl
    | _ => simp [text] at chars
  | string a =>
    cases y with
    | string b => rw [Quoted.string_inj (enclosed_inj same)]
    | _ => simp [text] at chars

/-! ### Texts of lines -/

/-- What a line starts with, up to its parenthesis. -/
def Outline.word (text : String) : String := String.ofList (text.toList.takeWhile (· ≠ '('))

section
variable {v w : VarId} {n m : NodeId} {ty kind : ValueType} {op other : BinaryOp}

theorem identifier_text_inj
    (same : "Identifier(" ++ v.text ++ ": " ++ ty.name ++ ")" =
      "Identifier(" ++ w.text ++ ": " ++ kind.name ++ ")") : v = w ∧ ty = kind := by
  simp only [String.append_assoc, String.append_right_inj] at same
  obtain ⟨same, later⟩ :=
    VarId.text_append_inj (by simp [NoDigitFirst]) (by simp [NoDigitFirst]) same
  simp only [String.append_right_inj, String.append_left_inj] at later
  exact ⟨same, ValueType.name_inj later⟩

theorem literal_text_inj {x y : Literal} (noFloat : ∀ bits, x ≠ .float bits)
    (same : "Literal(" ++ n.text ++ " " ++ x.text ++ ")" =
      "Literal(" ++ m.text ++ " " ++ y.text ++ ")") : n = m ∧ x = y := by
  simp only [String.append_assoc, String.append_right_inj] at same
  obtain ⟨same, later⟩ :=
    NodeId.text_append_inj (by simp [NoDigitFirst]) (by simp [NoDigitFirst]) same
  simp only [String.append_right_inj, String.append_left_inj] at later
  exact ⟨same, Literal.text_inj noFloat later⟩

theorem binary_text_inj
    (same : "Binary(" ++ op.name ++ ": " ++ ty.name =
      "Binary(" ++ other.name ++ ": " ++ kind.name) : op = other ∧ ty = kind := by
  simp only [String.append_assoc, String.append_right_inj] at same
  obtain ⟨same, later⟩ := BinaryOp.name_append_inj same
  exact ⟨same, ValueType.name_inj later⟩

end

/-! ### Lines of trees -/

theorem toDigits_stays (n : Nat) : '\n' ∉ Nat.toDigits 10 n := fun member =>
  absurd (Nat.isDigit_of_mem_toDigits (by decide) (by decide) member) (by decide)

theorem repr_stays (n : Int) : '\n' ∉ n.repr.toList := fun member =>
  absurd (repr_numeral n _ member) (by decide)

theorem VarId.text_stays (v : VarId) : '\n' ∉ v.text.toList := by
  simp [text, toDigits_stays]

theorem BlockId.text_stays (b : BlockId) : '\n' ∉ b.text.toList := by
  simp [text, toDigits_stays]

theorem FunctionId.text_stays (f : FunctionId) : '\n' ∉ f.text.toList := by
  simp [text, toDigits_stays]

theorem NodeId.text_stays (n : NodeId) : '\n' ∉ n.text.toList := by
  simp [text, toDigits_stays]

theorem ValueType.name_stays (ty : ValueType) : '\n' ∉ ty.name.toList := by
  cases ty <;> decide

theorem UnaryOp.name_stays (op : UnaryOp) : '\n' ∉ op.name.toList := by
  cases op <;> decide

theorem BinaryOp.name_stays (op : BinaryOp) : '\n' ∉ op.name.toList := by
  cases op <;> decide

theorem Decimal.text_stays (d : Decimal) : '\n' ∉ d.text := by
  have digits : '\n' ∉ d.digitChars := toDigits_stays d.digits
  have zeros : ∀ n, '\n' ∉ zeros n := fun n member =>
    absurd (List.eq_of_mem_replicate member) (by decide)
  have positional : '\n' ∉ d.positional := by
    simp only [Decimal.positional]
    split_ifs
    · simp [digits, zeros]
    · have front : ∀ n, '\n' ∉ d.digitChars.take n := fun n member =>
        digits (List.mem_of_mem_take member)
      have back : ∀ n, '\n' ∉ d.digitChars.drop n := fun n member =>
        digits (List.mem_of_mem_drop member)
      simp [front, back]
    · simp [digits, zeros]
  have scientific : '\n' ∉ d.scientific := by
    unfold Decimal.scientific
    split <;> simp_all [repr_stays]
  unfold Decimal.text
  split
  · exact positional
  · exact scientific

theorem Binary32.text_stays (x : Binary32) : '\n' ∉ x.text.toList := by
  have sign : ∀ negative, '\n' ∉ sign negative := by decide
  cases x with
  | nan => decide
  | infinite negative => simp [text, sign]
  | zero negative => simp [text, sign]
  | finite negative mantissa exp => simp [text, sign, Decimal.text_stays]

theorem Literal.text_stays (x : Literal) : '\n' ∉ x.text.toList := by
  cases x with
  | int value => simp [text, repr_stays]
  | char c => simp [text, Quoted.char, Quoted.enclose_stays (.inr rfl)]
  | bool b => cases b <;> decide
  | null => decide
  | float bits => simp [text, Binary32.text_stays]
  | string s => simp [text, Quoted.string, Quoted.enclose_stays (.inl rfl)]

theorem Outline.names_stay (vars : List VarId) : '\n' ∉ (names vars).toList := by
  induction vars with
  | nil => decide
  | cons v rest ih =>
    cases rest with
    | nil => simpa [names] using v.text_stays
    | cons w rest => simp_all [names, VarId.text_stays]

namespace Outline

section
variable {depth : Nat} {opening : String} {content : List OutlineLine}

theorem comma_clean (depth : Nat) : (comma depth).Clean := ⟨by simp [comma], by simp [comma]⟩

theorem enclose_clean (clean : (⟨depth, opening⟩ : OutlineLine).Clean)
    (inside : ∀ l ∈ content, l.Clean) : ∀ l ∈ enclose depth opening content, l.Clean := by
  have closing : (⟨depth, ")"⟩ : OutlineLine).Clean := ⟨by simp, by simp⟩
  intro l member
  rcases List.mem_append.mp member with front | last
  · exact List.forall_mem_cons.mpr ⟨clean, inside⟩ l front
  · exact List.mem_singleton.mp last ▸ closing

theorem parted_clean {α : Type} {shown : α → List OutlineLine} {items : List α}
    (each : ∀ a ∈ items, ∀ l ∈ shown a, l.Clean) : ∀ l ∈ parted depth shown items, l.Clean := by
  cases items with
  | nil => exact fun _ member => (List.not_mem_nil member).elim
  | cons a rest =>
    obtain ⟨here, there⟩ := List.forall_mem_cons.mp each
    refine List.forall_mem_append.mpr ⟨here, fun l member => ?_⟩
    obtain ⟨b, later, member⟩ := List.mem_flatMap.mp member
    exact List.forall_mem_cons.mpr ⟨comma_clean depth, there b later⟩ l member

theorem params_clean (depth : Nat) (vars : List VarId) : ∀ l ∈ params depth vars, l.Clean := by
  intro l member
  obtain ⟨v, _, rfl⟩ := List.mem_map.mp member
  exact ⟨by simp [v.text_stays], by simp⟩

theorem block_clean {id : BlockId} (inside : ∀ l ∈ content, l.Clean) :
    ∀ l ∈ block depth id content, l.Clean :=
  enclose_clean ⟨by simp [id.text_stays], by simp⟩ inside

end

end Outline

theorem Expr.outline_clean (e : Expr) : ∀ depth, ∀ l ∈ e.outline depth, l.Clean := by
  induction e using Expr.args_induction with
  | ident ty v =>
    intro depth l member
    cases List.mem_singleton.mp member
    exact ⟨by simp [v.text_stays, ty.name_stays], by simp⟩
  | lit ty node x =>
    intro depth l member
    cases List.mem_singleton.mp member
    exact ⟨by simp [node.text_stays, x.text_stays], by simp⟩
  | assign ty target value ih =>
    intro depth
    exact Outline.enclose_clean ⟨by simp [target.text_stays], by simp⟩ (ih (depth + 1))
  | unary ty op operand ih =>
    intro depth
    exact Outline.enclose_clean ⟨by simp [op.name_stays], by simp⟩ (ih (depth + 1))
  | binary ty op left right first second =>
    intro depth
    refine Outline.enclose_clean ⟨by simp [op.name_stays, ty.name_stays], by simp⟩ ?_
    exact List.forall_mem_append.mpr ⟨first (depth + 1),
      List.forall_mem_cons.mpr ⟨Outline.comma_clean _, second (depth + 1)⟩⟩
  | call ty callee args each =>
    intro depth
    refine Outline.enclose_clean ⟨by simp [callee.text_stays], by simp⟩ ?_
    rw [outlineArgs_eq]
    exact Outline.parted_clean fun arg member => each arg member (depth + 1)

theorem Expr.outlinePart_clean (e : Expr) (depth : Nat) {label : String}
    (word : label ∈ ["Condition", "Init", "Step", "Return", "ExpressionStmt"]) :
    ∀ l ∈ e.outlinePart depth label, l.Clean := by
  refine Outline.enclose_clean ?_ (e.outline_clean (depth + 1))
  simp only [List.mem_cons, List.not_mem_nil, or_false] at word
  rcases word with rfl | rfl | rfl | rfl | rfl <;> exact ⟨by simp, by simp⟩

theorem Outline.step_clean (depth : Nat) (e : Option Expr) : ∀ l ∈ step depth e, l.Clean := by
  cases e with
  | none => exact fun _ member => (List.not_mem_nil member).elim
  | some e => exact e.outlinePart_clean depth (by simp)

theorem Stmt.outline_clean (s : Stmt) : ∀ depth, ∀ l ∈ s.outline depth, l.Clean := by
  induction s using Stmt.inside_induction with
  | step s each =>
    intro depth
    have body_clean : ∀ depth, ∀ l ∈ outlineBody depth s.inside, l.Clean := by
      intro depth
      rw [outlineBody_eq]
      exact Outline.parted_clean fun t member => each t member depth
    cases s with
    | function decl =>
      obtain ⟨symbol, params, ⟨id, body⟩⟩ := decl
      exact Outline.enclose_clean ⟨by simp [symbol.text_stays], by simp⟩
        (List.forall_mem_append.mpr ⟨Outline.params_clean _ params,
          Outline.block_clean (body_clean (depth + 2))⟩)
    | declare vars =>
      intro l member
      cases List.mem_singleton.mp member
      exact ⟨by simp [Outline.names_stay], by simp⟩
    | block b =>
      obtain ⟨id, body⟩ := b
      exact Outline.block_clean (body_clean (depth + 1))
    | ifThen test b =>
      obtain ⟨id, body⟩ := b
      exact Outline.enclose_clean ⟨by simp, by simp⟩ (List.forall_mem_append.mpr
        ⟨test.outlinePart_clean _ (by simp), List.forall_mem_cons.mpr
          ⟨Outline.comma_clean _, Outline.block_clean (body_clean (depth + 2))⟩⟩)
    | whileLoop test b =>
      obtain ⟨id, body⟩ := b
      exact Outline.enclose_clean ⟨by simp, by simp⟩ (List.forall_mem_append.mpr
        ⟨test.outlinePart_clean _ (by simp), List.forall_mem_cons.mpr
          ⟨Outline.comma_clean _, Outline.block_clean (body_clean (depth + 2))⟩⟩)
    | forLoop init test step b =>
      obtain ⟨id, body⟩ := b
      rw [outline_forLoop]
      refine Outline.enclose_clean ⟨by simp, by simp⟩ ?_
      simp only [List.forall_mem_append]
      exact ⟨⟨⟨init.outlinePart_clean _ (by simp), test.outlinePart_clean _ (by simp)⟩,
        Outline.step_clean _ step⟩, Outline.block_clean (body_clean (depth + 2))⟩
    | ret value =>
      cases value with
      | none =>
        intro l member
        cases List.mem_singleton.mp member
        exact ⟨by simp, by simp⟩
      | some value => exact value.outlinePart_clean depth (by simp)
    | eval e => exact e.outlinePart_clean depth (by simp)

theorem Block.outline_clean (b : Block) (depth : Nat) : ∀ l ∈ b.outline depth, l.Clean := by
  rw [← Stmt.outline_block]
  exact Stmt.outline_clean _ depth

theorem FunctionDecl.outline_clean (f : FunctionDecl) (depth : Nat) :
    ∀ l ∈ f.outline depth, l.Clean := by
  rw [← Stmt.outline_function]
  exact Stmt.outline_clean _ depth

theorem Program.outline_clean (p : Program) (depth : Nat) : ∀ l ∈ p.outline depth, l.Clean := by
  refine Outline.enclose_clean ⟨by simp, by simp⟩ fun l member => ?_
  obtain ⟨s, _, member⟩ := List.mem_flatMap.mp member
  exact s.outline_clean (depth + 1) l member

end Ia32Backend
