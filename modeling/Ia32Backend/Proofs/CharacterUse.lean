import Ia32Backend.Proofs.CallFree
import Ia32Backend.Proofs.Meaning.Character

/-!
Characters where a long is wanted: returned, passed, assigned to a wider variable, or combined with
an operand that is none. All of these extend the value from the width its code reports, so a use of
the value and one of a variable that took it on differ by what the variable cuts off.
-/
namespace Ia32Backend

/-- Code in which an expression is wanted as a long, behind the code of what is evaluated before. -/
inductive Expr.Takes (env : Env) (e : Expr) : List Instr → List Instr → Prop where
  | returned {direct : Bool} {l last : Labels} {code : List Instr}
      (ok : (Stmt.ret (some e)).code env direct l = .ok (code, last)) : Takes env e [] code
  | passed {ty : ValueType} {callee : FunctionId} {before after : List Expr} {pushed : List Instr}
      {v : ValueCode} (later : pushArgs env after = .ok pushed)
      (ok : (Expr.call ty callee (before ++ e :: after)).code env = .ok v) :
      Takes env e pushed v.code
  | stored {ty : ValueType} {target : VarId} {v : ValueCode}
      (wider : env.symbols.typeOf? target ≠ some .char)
      (ok : (Expr.assign ty target e).code env = .ok v) : Takes env e [] v.code
  | left {ty : ValueType} {op : BinaryOp} {right : Expr} {v : ValueCode} (wider : right.ty ≠ .char)
      (ok : (Expr.binary ty op e right).code env = .ok v) : Takes env e [] v.code
  | right {ty : ValueType} {op : BinaryOp} {left : Expr} {first v : ValueCode}
      (wider : left.ty ≠ .char) (earlier : left.code env = .ok first)
      (ok : (Expr.binary ty op left e).code env = .ok v) :
      Takes env e (first.at .long ++ [.mov .long .acc .other] ++
        if e.usesOther then [.push .other] else []) v.code

theorem Env.width_of_wider {env : Env} {target : VarId} {p : Place}
    (wider : env.symbols.typeOf? target ≠ some .char) (placed : env.place target = .ok p) :
    p.width = .long := by
  obtain ⟨s, offset, found, _, rfl⟩ := Env.place_ok placed
  rw [typeOf_of_variableAt found] at wider
  revert wider
  cases s.ty <;> simp [ValueType.width]

namespace Expr

variable {env : Env} {e : Expr} {v : ValueCode}

theorem pushArgs_starts {before after : List Expr} {pushed : List Instr}
    (lowered : e.code env = .ok v) (later : pushArgs env after = .ok pushed) :
    ∀ {all}, pushArgs env (before ++ e :: after) = .ok all → pushed ++ v.at .long <+: all := by
  induction before with
  | nil =>
    intro all ok
    obtain ⟨_, _, inner, here, rfl⟩ := pushArgs_cons_ok ok
    cases later.symm.trans inner
    cases lowered.symm.trans here
    exact List.prefix_append _ _
  | cons arg rest ih =>
    intro all ok
    obtain ⟨_, _, inner, _, rfl⟩ := pushArgs_cons_ok ok
    rw [List.append_assoc]
    exact (ih inner).trans (List.prefix_append _ _)

/-- Whoever wants a long has the value extended to one. -/
theorem takes_extended {before code : List Instr} (lowered : e.code env = .ok v)
    (takes : e.Takes env before code) : before ++ v.at .long <+: code := by
  cases takes with
  | returned ok =>
    obtain ⟨_, _, returned, _, rfl, _⟩ := Stmt.code_ret_ok ok
    obtain ⟨w, inner, rfl⟩ := returnValue_some_ok returned
    cases lowered.symm.trans inner
    rw [List.append_assoc]
    exact List.prefix_append _ _
  | passed later ok =>
    obtain ⟨f, pushed, _, inner, rfl⟩ := code_call_ok ok
    rw [callCode, List.append_assoc]
    exact (pushArgs_starts lowered later inner).trans (List.prefix_append _ _)
  | stored wider ok =>
    obtain ⟨place, w, placed, inner, rfl⟩ := code_assign_ok ok
    cases lowered.symm.trans inner
    rw [Place.store, Env.width_of_wider wider placed]
    exact List.prefix_append _ _
  | @left _ op right _ wider ok =>
    obtain ⟨w, l, r, width, first, second, rfl⟩ := code_binary_ok ok
    cases lowered.symm.trans first
    cases (Site.operandWidth_of_ok width).trans (if_neg fun both => wider both.2)
    simp only [binaryCode, List.append_assoc]
    exact List.prefix_append _ _
  | @right _ op left _ _ wider earlier ok =>
    obtain ⟨w, l, r, width, first, second, rfl⟩ := code_binary_ok ok
    cases earlier.symm.trans first
    cases lowered.symm.trans second
    cases (Site.operandWidth_of_ok width).trans (if_neg fun both => wider both.1)
    simp only [binaryCode]
    exact (List.prefix_append _ _).trans ((List.prefix_append _ _).trans (List.prefix_append _ _))

/-- On every machine that holds these words, the code of an expression, taken at a width, ends with
a number in the accumulator and other words in the variables. -/
def Yields (env : Env) (e : Expr) (w : Width) (vars after : VarId → Word) (x : BitVec w.bits) :
    Prop :=
  ∃ v, e.code env = .ok v ∧ ∀ (m : Image) (names : List VarId) (i : Nat) (c : Cpu)
    (log : List RuntimeCall), e.names ⊆ names → Stage m env names vars ⟨.inside i, c, log⟩ →
    m.Has i (v.at w) → Stage.Reaches m env names ⟨.inside i, c, log⟩ (i + (v.at w).length) after
      fun c' => c'.low w .ax = x

theorem yields_of_character {data : String → Word} {base : Word} {s after : Store Unit} {x : Value}
    (character : e.IsCharacter env.symbols) (lowered : e.code env = .ok v)
    (done : e.evaluate (env.terrain data base) noCallees s = .ok (x, after)) (w : Width) :
    e.Yields env w s.vars after.vars (x.at w) := by
  refine ⟨v, lowered, fun m names i c log inside stage here => ?_⟩
  have same : e.evaluate (env.terrain m.data (c.reg .bp)) noCallees =
      e.evaluate (env.terrain data base) noCallees := evaluate_of_widths character rfl
  exact stage.reaches_at inside lowered w here ((congrFun same s).trans done)

end Expr

/-- A character used as a long, and a variable used that took it on. All uses extend what they use;
the variable gives the low byte of the value, extended by its sign; and this is the word of the value
unless it is the code point of a literal, or its negative, and does not fit a byte. -/
theorem character_through_variable {env : Env} {e : Expr} {u : VarId} {assigned : ValueCode}
    {data : String → Word} {base : Word} {s : Store Unit}
    (character : e.IsCharacter env.symbols) (declared : env.symbols.typeOf? u = some .char)
    (lowered : (Expr.assign .char u e).code env = .ok assigned)
    (faultless : e.evaluate (env.terrain data base) noCallees s ≠ .error .divide) :
    (∀ used ∈ [e, .ident .char u], ∀ v before code, used.code env = .ok v →
      used.Takes env before code → before ++ v.at .long <+: code) ∧
    ∃ (x : Word) (after : VarId → Word), e.Yields env .long s.vars after x ∧
      (Expr.assign .char u e).Yields env .byte s.vars
        (fun w => if w = u then (x.setWidth 8).signExtend 32 else after w) (x.setWidth 8) ∧
      (∀ vars, vars u = (x.setWidth 8).signExtend 32 →
        (Expr.ident .char u).Yields env .long vars vars ((x.setWidth 8).signExtend 32)) ∧
      (x = (x.setWidth 8).signExtend 32 ↔ ∀ n, e.literal? = some n → -128 ≤ n ∧ n < 128) := by
  obtain ⟨p, v, placed, inner, rfl⟩ := Expr.code_assign_ok lowered
  obtain ⟨x, after, done⟩ :=
    Expr.evaluate_settles (Expr.callFree_of_character character) inner faultless
  have narrow : ∀ v, env.symbols.typeOf? v = some .char → (env.terrain data base).width v = .byte :=
    fun v char => env.width_of_typeOf char data base
  refine ⟨fun _ _ v before code ok takes => Expr.takes_extended ok takes, x.at .long, after.vars,
    Expr.yields_of_character character inner done .long, ?_, ?_, ?_⟩
  · have taken : (env.terrain data base).convert u x = ⟨.byte, (x.at .long).setWidth 8⟩ := by
      rw [Terrain.convert, narrow u declared, Value.at_byte]
    have stores := Expr.yields_of_character (.assign declared character) lowered
      (Expr.evaluate_assign done) .byte
    rwa [taken, Value.at_own] at stores
  · intro vars holds
    have code : (Expr.ident .char u).code env = .ok p.load := by
      rw [Expr.code, placed]
      rfl
    have read : (env.terrain data base).load u (vars u) = ⟨.byte, (x.at .long).setWidth 8⟩ := by
      rw [Terrain.load, narrow u declared, holds]
      exact congrArg (Value.mk .byte) (Value.setWidth_signExtend _ (by decide))
    have loaded : (Expr.ident .char u).evaluate (env.terrain data base) noCallees ⟨vars, ()⟩ =
        .ok (⟨.byte, (x.at .long).setWidth 8⟩, ⟨vars, ()⟩) :=
      congrArg (fun y => Except.ok (y, (⟨vars, ()⟩ : Store Unit))) read
    exact Expr.yields_of_character (.var declared) code loaded .long
  · rcases Expr.value_of_character character narrow done with ⟨none, byte⟩ | ⟨n, some, rfl⟩
    · refine ⟨fun _ n found => ?_, fun _ => (Value.extend_of_byte byte).symm⟩
      cases none.symm.trans found
    · have bounds := Expr.literal?_bounds some
      rw [Value.at_own, extend_ofInt bounds.1 bounds.2, some]
      exact ⟨fun fits _ found => Option.some.inj found ▸ fits, fun fits => fits n rfl⟩

/-- Characters `c` and `d` at 4 and 8 bytes below the frame pointer. -/
def spelling : Env where
  symbols := { vars := [⟨"c", .char, ⟨0⟩⟩, ⟨"d", .char, ⟨0⟩⟩] }
  config := {}
  strings := {}
  frames := ((({} : Frames).allocate ⟨0⟩ .char ⟨0⟩).2.allocate ⟨0⟩ .char ⟨1⟩).2

/-- `'é'` -/
def accent : Expr := .lit .char ⟨0⟩ (.char 'é')

/-- `c + 'é'` -/
def accented : Expr := .binary .char .plus (.ident .char ⟨0⟩) accent

def codeOf (e : Expr) : ValueCode := (e.code spelling).toOption.getD ⟨[], .long⟩

/-- The value wanted as a long. -/
def directCode (e : Expr) : List Instr := (codeOf e).at .long

/-- The value assigned to `d`, and `d` wanted as a long. -/
def throughCode (e : Expr) : List Instr :=
  (codeOf (.assign .char ⟨1⟩ e)).code ++ directCode (.ident .char ⟨1⟩)

def accentedImage : Image := Image.ofCode (directCode accented) (by decide)

def accentedThroughImage : Image := Image.ofCode (throughCode accented) (by decide)

/-- Zero in `c` and seven in `d`. -/
def sevenInD : VarId → Word := fun v => if v = ⟨1⟩ then 7 else 0

theorem spelling_spread : (spelling.terrain (fun _ => 0) 4112).Spread [⟨0⟩, ⟨1⟩] 4096 4112 :=
  ⟨by decide, by decide, by decide⟩

theorem spelling_held :
    (spelling.terrain (fun _ => 0) 4112).Held [⟨0⟩, ⟨1⟩] sevenInD pointingCpu.mem := by
  unfold Terrain.Held
  decide

/-- Slots do not depend on where strings lie. -/
theorem spelling_stage {m : Image} (n : Nat)
    (ends : m.advance n ⟨.inside 0, pointingCpu, []⟩ = .error .stuck) :
    Stage m spelling [⟨0⟩, ⟨1⟩] sevenInD ⟨.inside 0, pointingCpu, []⟩ :=
  ⟨⟨spelling_spread.1, spelling_spread.2, spelling_spread.3⟩, spelling_held,
    Image.stackLasts_of_advance n ends⟩

theorem character_through_variable_accented :
    ∃ n c k c', accentedImage.Steps n ⟨.inside 0, pointingCpu, []⟩ ⟨.inside 6, c, []⟩ ∧
      accentedThroughImage.Steps k ⟨.inside 0, pointingCpu, []⟩ ⟨.inside 8, c', []⟩ ∧
      c.reg .ax = c'.reg .ax := by
  have character : accented.IsCharacter spelling.symbols :=
    .combine rfl (.var rfl) (.literal _ _)
  have lowered : (Expr.assign .char ⟨1⟩ accented).code spelling =
    .ok (codeOf (.assign .char ⟨1⟩ accented)) := rfl
  have faultless : accented.evaluate (spelling.terrain (fun _ => 0) 4112) noCallees
    ⟨sevenInD, ()⟩ ≠ .error .divide := by rintro ⟨⟩
  obtain ⟨_, x, after, ⟨_, ⟨⟩, direct⟩, ⟨_, ⟨⟩, stores⟩, loads, fits⟩ :=
    character_through_variable character rfl lowered faultless
  have here : accentedImage.Has 0 (directCode accented) :=
    @Image.has_middle _ _ [] [] (List.append_nil _).symm
  obtain ⟨hereStore, hereLoad⟩ : accentedThroughImage.Has 0 _ ∧ accentedThroughImage.Has _ _ :=
    Image.has_append.mp (@Image.has_middle accentedThroughImage (throughCode accented) [] []
      (List.append_nil _).symm)
  obtain ⟨n, c, steps, _, _, _, word⟩ := direct accentedImage [⟨0⟩, ⟨1⟩] 0 pointingCpu []
    (by decide) (spelling_stage 7 rfl) here
  obtain ⟨k, mid, first, stage, _⟩ := stores accentedThroughImage [⟨0⟩, ⟨1⟩] 0 pointingCpu []
    (by decide) (spelling_stage 9 rfl) hereStore
  obtain ⟨_, ⟨⟩, loads⟩ :=
    loads (fun w => if w = ⟨1⟩ then (x.setWidth 8).signExtend 32 else after w) (if_pos rfl)
  obtain ⟨j, c', second, _, _, _, wordThrough⟩ :=
    loads accentedThroughImage [⟨0⟩, ⟨1⟩] 6 mid [] (by decide) stage hereLoad
  refine ⟨n, c, j + k, c', steps, Image.steps_trans first second, ?_⟩
  rw [Cpu.low_long] at word wordThrough
  rw [word, wordThrough]
  exact fits.mpr fun n literal => by cases literal

def accentImage : Image := Image.ofCode (directCode accent) (by decide)

def accentThroughImage : Image := Image.ofCode (throughCode accent) (by decide)

/-- `return 'é'` returns 233, but with `d = 'é'`, `return d` returns -23. -/
theorem accent_through_variable_differs :
    accent.IsCharacter spelling.symbols ∧ spelling.symbols.typeOf? ⟨1⟩ = some .char ∧
      accent.Takes spelling [] (directCode accent ++ epilogue) ∧
      (Expr.assign .char ⟨1⟩ accent).code spelling = .ok (codeOf (.assign .char ⟨1⟩ accent)) ∧
      (Expr.ident .char ⟨1⟩).Takes spelling [] (directCode (.ident .char ⟨1⟩) ++ epilogue) ∧
      ∃ c c', accentImage.Steps 1 ⟨.inside 0, pointingCpu, []⟩ ⟨.inside 1, c, []⟩ ∧
        accentThroughImage.Steps 4 ⟨.inside 0, pointingCpu, []⟩ ⟨.inside 4, c', []⟩ ∧
        c.reg .ax = 233 ∧ c'.reg .ax = -23 := by
  obtain ⟨c, ran, direct⟩ : ∃ c, accentImage.advance 1 ⟨.inside 0, pointingCpu, []⟩ =
      .ok ⟨.inside 1, c, []⟩ ∧ c.reg .ax = 233 := ⟨_, rfl, rfl⟩
  obtain ⟨c', ranThrough, through⟩ : ∃ c,
      accentThroughImage.advance 4 ⟨.inside 0, pointingCpu, []⟩ = .ok ⟨.inside 4, c, []⟩ ∧
        c.reg .ax = -23 := ⟨_, rfl, rfl⟩
  have returned : (Stmt.ret (some accent)).code spelling false {} =
    .ok (directCode accent ++ epilogue, {}) := rfl
  have returnedThrough : (Stmt.ret (some (.ident .char ⟨1⟩))).code spelling false {} =
    .ok (directCode (.ident .char ⟨1⟩) ++ epilogue, {}) := rfl
  exact ⟨.literal _ _, rfl, .returned returned, rfl, .returned returnedThrough, c, c',
    Image.steps_advance ran, Image.steps_advance ranThrough, direct, through⟩

end Ia32Backend
