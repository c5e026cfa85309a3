import Ia32Backend.Proofs.Renumbering
import Ia32Backend.Proofs.TouchedBlocks

/-!
Functions that touch different blocks compile independently. In a unit each of them is accepted or
refused as it is alone, and its code is the code it has alone, with its branch labels moved on by
the constructs of the functions before it.
-/
namespace Ia32Backend

theorem renumberFunction_prologue (k : Labels) (label : String) (reserved : Nat)
    (rest : List Instr) : renumberFunction k (prologue label reserved ++ rest) =
      prologue label reserved ++ renumber k rest := by
  unfold prologue
  split <;> rfl

theorem straight_start (entry : Bool) (routine : String) :
    Straight (if entry then [.call routine] else []) := by
  cases entry <;> exact ⟨rfl, rfl⟩

theorem straight_close (body : List Stmt) :
    Straight (if endsInReturn body then [] else epilogue) := by
  split <;> exact ⟨rfl, rfl⟩

/-- The result of a function's code in a unit of its own. -/
def Env.alone (env : Env) (f : FunctionDecl) : Except Fault FunctionCode :=
  f.code { env with frames := {} } {}

theorem frame_code_of_ne {env : Env} {l : Labels} {f : FunctionDecl} {c : FunctionCode}
    (ok : f.code env l = .ok c) {b : BlockId} (untouched : b ∉ f.touched env.symbols) :
    c.frames.frame b = env.frames.frame b := by
  obtain ⟨symbol, layout, copies, body, _, laid, _, _, frames, _⟩ := f.code_ok ok
  rw [frames]
  exact Layout.frame_ofFunction_of_ne laid fun used => untouched (List.mem_append_left _ used)

/-- How a function's code in a unit follows from its code alone. -/
structure MovedOn (l : Labels) (f : FunctionDecl) (c alone : FunctionCode) : Prop where
  code : c.code = renumberFunction l alone.code
  labels : c.labels = l.add f.constructs

theorem function_alone {env : Env} {l : Labels} {f : FunctionDecl}
    (fresh : env.frames.SameOn (f.touched env.symbols) {}) :
    Alike (MovedOn l f) (f.code env l) (env.alone f) := by
  obtain ⟨owned, named⟩ := f.ownersIn_touched env.symbols
  have own : f.blockIds ⊆ f.touched env.symbols := fun b member =>
    List.mem_append_left _ (List.mem_append_left _ member)
  refine alike_after fun symbol _ => ?_
  refine alike_bind (Layout.alike_ofFunction fresh own owned) fun here apart same => ?_
  have copied : copyParams { env with frames := here.frames } 0 f.params =
      copyParams { env with frames := apart.frames } 0 f.params :=
    copyParams_same f.params 0 (sameFor_frames same.frames (ownersIn_append.mp owned).1)
  have inside : ∀ direct l, Stmt.codeAll { env with frames := here.frames } direct l f.body.body =
      Stmt.codeAll { env with frames := apart.frames } direct l f.body.body := fun direct l =>
    codeAll_same f.body.body f.params direct l (sameFor_frames same.frames named) rfl
  have moved := Stmt.codeAll_ahead { env with frames := apart.frames } l f.body.body
    (symbol.name = env.config.entryName) {}
  rw [Labels.zero_add, ← inside] at moved
  dsimp only
  rw [copied]
  refine alike_after fun copies ok => alike_bind (alike_of_map moved) ?_
  rintro _ ⟨body, last⟩ ⟨rfl, written⟩
  have straight := (copyParams_straight ok).1
  refine alike_pure ⟨?_, ?_⟩
  · simp only [List.append_assoc, renumberFunction_prologue, renumber_append,
      renumber_straight l straight, renumber_straight l (straight_start _ _),
      renumber_straight l (straight_close f.body.body), same.reserved, ahead]
  · simp only [ahead, Stmt.labels_codeAll _ _ _ _ _ _ written, Labels.zero_add]
    exact Labels.add_comm _ _

/-! Functions one after another. -/

/-- The codes of some functions, each as it is alone, with its branch labels moved on by the
constructs of the functions before it. -/
def joined (alone : FunctionDecl → Except Fault FunctionCode) (l : Labels) :
    List FunctionDecl → Except Fault (List (List Instr))
  | [] => pure []
  | f :: rest => do
      let c ← alone f
      let later ← joined alone (l.add f.constructs) rest
      pure (renumberFunction l c.code :: later)

def Program.ofFunctions (functions : List FunctionDecl) : Program := ⟨functions.map .function⟩

/-- No two of some functions touch the same block. -/
def Apart (symbols : SymbolTable) (functions : List FunctionDecl) : Prop :=
  functions.Pairwise fun f g => ∀ b ∈ f.touched symbols, b ∉ g.touched symbols

theorem functionsCode_joined {functions : List FunctionDecl} :
    ∀ {env : Env} {l : Labels}, Apart env.symbols functions →
      (∀ f ∈ functions, env.frames.SameOn (f.touched env.symbols) {}) →
      functionsCode env l (Program.ofFunctions functions).body = joined env.alone l functions := by
  induction functions with
  | nil => exact fun _ _ => rfl
  | cons f rest ih =>
    intro env l apart fresh
    obtain ⟨others, tail⟩ := List.pairwise_cons.mp apart
    have first := function_alone (l := l) (fresh f List.mem_cons_self)
    cases result : env.alone f with
    | error cause =>
      have fails := alike_error first result
      simp only [Program.ofFunctions, List.map_cons, functionsCode, joined, fails, result]
      rfl
    | ok d =>
      obtain ⟨c, ok, moved⟩ := alike_ok first result
      have next : ∀ g ∈ rest, c.frames.SameOn (g.touched env.symbols) {} := by
        intro g member b inside
        rw [frame_code_of_ne ok fun here => others g member b here inside]
        exact fresh g (List.mem_cons_of_mem f member) b inside
      have later : functionsCode { env with frames := c.frames } c.labels
          (rest.map Stmt.function) = joined env.alone c.labels rest := ih tail next
      rw [moved.labels] at later
      simp only [Program.ofFunctions, List.map_cons, functionsCode, joined, ok, result, bind,
        Except.bind, moved.code, moved.labels, later]

section
variable {alone : FunctionDecl → Except Fault FunctionCode}

theorem joined_ok {functions : List FunctionDecl} : ∀ {l : Labels},
    (∃ codes, joined alone l functions = .ok codes) ↔
      ∀ f ∈ functions, ∃ c, alone f = .ok c := by
  induction functions with
  | nil => simp [joined, pure, Except.pure]
  | cons f rest ih =>
    intro l
    cases here : alone f with
    | error cause => simp [joined, here, bind, Except.bind]
    | ok c =>
      rw [List.forall_mem_cons, ← ih (l := l.add f.constructs)]
      cases later : joined alone (l.add f.constructs) rest with
      | error cause => simp [joined, here, later, bind, Except.bind]
      | ok codes => simp [joined, here, later, bind, Except.bind, pure, Except.pure]

theorem joined_error {functions : List FunctionDecl} {cause : Fault} : ∀ {l : Labels},
    joined alone l functions = .error cause ↔ ∃ before f after,
      functions = before ++ f :: after ∧ (∀ g ∈ before, ∃ c, alone g = .ok c) ∧
        alone f = .error cause := by
  induction functions with
  | nil => simp [joined, pure, Except.pure]
  | cons f rest ih =>
    intro l
    cases here : alone f with
    | error other =>
      simp only [joined, here, bind, Except.bind, Except.error.injEq]
      constructor
      · rintro rfl
        exact ⟨[], f, rest, rfl, nofun, here⟩
      · rintro ⟨before, g, after, split, accepted, fails⟩
        cases before with
        | nil =>
          injection split with same
          rw [← same, here, Except.error.injEq] at fails
          exact fails
        | cons first more =>
          injection split with same
          obtain ⟨c, ok⟩ := accepted first List.mem_cons_self
          rw [← same, here] at ok
          cases ok
    | ok c =>
      have step : joined alone l (f :: rest) = .error cause ↔
          joined alone (l.add f.constructs) rest = .error cause := by
        cases later : joined alone (l.add f.constructs) rest with
        | error other => simp [joined, here, later, bind, Except.bind]
        | ok codes => simp [joined, here, later, bind, Except.bind, pure, Except.pure]
      rw [step, ih]
      constructor
      · rintro ⟨before, g, after, rfl, accepted, fails⟩
        exact ⟨f :: before, g, after, rfl, List.forall_mem_cons.mpr ⟨⟨c, here⟩, accepted⟩, fails⟩
      · rintro ⟨before, g, after, split, accepted, fails⟩
        cases before with
        | nil =>
          injection split with same
          rw [← same, here] at fails
          cases fails
        | cons first more =>
          injection split with _ tail
          exact ⟨more, g, after, tail, (List.forall_mem_cons.mp accepted).2, fails⟩

theorem joined_codes {functions : List FunctionDecl} : ∀ {l : Labels} {codes : List (List Instr)},
    joined alone l functions = .ok codes → codes.length = functions.length ∧
      ∀ before f after, functions = before ++ f :: after → ∃ c, alone f = .ok c ∧
        codes[before.length]? =
          some (renumberFunction (l.add (constructsOfAll before)) c.code) := by
  induction functions with
  | nil =>
    intro l codes ok
    cases pure_eq_ok.mp ok
    exact ⟨rfl, fun before f after split => by cases before <;> cases split⟩
  | cons f rest ih =>
    intro l codes ok
    simp only [joined, bind_eq_ok, pure_eq_ok] at ok
    obtain ⟨c, here, later, tail, rfl⟩ := ok
    obtain ⟨length, each⟩ := ih tail
    refine ⟨by rw [List.length_cons, List.length_cons, length], ?_⟩
    intro before g after split
    cases before with
    | nil =>
      injection split with same
      subst g
      exact ⟨c, here, rfl⟩
    | cons first more =>
      injection split with same tail
      subst first
      obtain ⟨d, alone, position⟩ := each more g after tail
      refine ⟨d, alone, ?_⟩
      rw [constructsOfAll, ← Labels.add_assoc]
      exact position

end

/-! Whole units. -/

section
variable {symbols : SymbolTable} {config : Config} {p : Program}

theorem assembly_ok : (∃ text, p.assembly symbols config = .ok text) ↔
    ∃ u, p.code symbols config = .ok u := by
  cases result : p.code symbols config with
  | error cause => simp [Program.assembly, result, bind, Except.bind]
  | ok u => simp [Program.assembly, result, bind, Except.bind, pure, Except.pure]

theorem assembly_error {cause : Fault} : p.assembly symbols config = .error cause ↔
    p.code symbols config = .error cause := by
  cases result : p.code symbols config with
  | error other => simp [Program.assembly, result, bind, Except.bind]
  | ok u => simp [Program.assembly, result, bind, Except.bind, pure, Except.pure]

/-- What every function of a unit is compiled against. -/
def unitEnv (symbols : SymbolTable) (config : Config) : Env :=
  ⟨symbols, config, (StringPool.ofLiterals symbols.literals config.pauseText).2, {}⟩

/-- The unit that some functions' codes make up, with the string data and exports before them. -/
def unitOf (symbols : SymbolTable) (config : Config) (functions : List (List Instr)) :
    UnitCode :=
  ⟨(StringPool.ofLiterals symbols.literals config.pauseText).1,
    symbols.functions.map fun f => .globl f.label, functions⟩

theorem Program.code_eq (symbols : SymbolTable) (config : Config) (p : Program) :
    p.code symbols config =
      (functionsCode (unitEnv symbols config) {} p.body).map (unitOf symbols config) := rfl

theorem functions_error {cause : Fault} : p.assembly symbols config = .error cause ↔
    functionsCode (unitEnv symbols config) {} p.body = .error cause := by
  rw [assembly_error, Program.code_eq]
  cases functionsCode (unitEnv symbols config) {} p.body <;> simp [Except.map]

theorem code_ofFunctions {functions : List FunctionDecl} (apart : Apart symbols functions) :
    (Program.ofFunctions functions).code symbols config =
      (joined (unitEnv symbols config).alone {} functions).map (unitOf symbols config) := by
  have joins : functionsCode (unitEnv symbols config) {} (Program.ofFunctions functions).body =
      joined (unitEnv symbols config).alone {} functions :=
    functionsCode_joined apart fun _ _ _ _ => rfl
  rw [Program.code_eq, joins]

theorem code_ofFunction (f : FunctionDecl) :
    (Program.ofFunctions [f]).code symbols config =
      ((unitEnv symbols config).alone f).map fun c => unitOf symbols config [c.code] := by
  have only : functionsCode (unitEnv symbols config) {} [.function f] =
      ((unitEnv symbols config).alone f).map fun c => [c.code] := by
    have first : f.code (unitEnv symbols config) {} = (unitEnv symbols config).alone f := rfl
    rw [functionsCode, first]
    cases (unitEnv symbols config).alone f <;> rfl
  rw [Program.code_eq, show (Program.ofFunctions [f]).body = [.function f] from rfl, only]
  cases (unitEnv symbols config).alone f <;> rfl

theorem alone_ok (f : FunctionDecl) :
    (∃ text, (Program.ofFunctions [f]).assembly symbols config = .ok text) ↔
      ∃ c, (unitEnv symbols config).alone f = .ok c := by
  rw [assembly_ok, code_ofFunction]
  cases (unitEnv symbols config).alone f <;> simp [Except.map]

theorem alone_error {f : FunctionDecl} {cause : Fault} :
    (Program.ofFunctions [f]).assembly symbols config = .error cause ↔
      (unitEnv symbols config).alone f = .error cause := by
  rw [assembly_error, code_ofFunction]
  cases (unitEnv symbols config).alone f <;> simp [Except.map]

end

/-- Functions that touch different blocks: a unit of them is accepted exactly when each is accepted
in a unit of its own, and refused with the fault of the first that is refused alone. The code of
each is its code alone, where every branch label has its number moved on by how many constructs of
the kind stand in the functions before. -/
theorem functions_compile_apart {symbols : SymbolTable} {functions : List FunctionDecl}
    (apart : Apart symbols functions) (config : Config) :
    ((∃ text, (Program.ofFunctions functions).assembly symbols config = .ok text) ↔
      ∀ f ∈ functions, ∃ text, (Program.ofFunctions [f]).assembly symbols config = .ok text) ∧
    (∀ cause, (Program.ofFunctions functions).assembly symbols config = .error cause ↔
      ∃ before f after, functions = before ++ f :: after ∧
        (∀ g ∈ before, ∃ text, (Program.ofFunctions [g]).assembly symbols config = .ok text) ∧
        (Program.ofFunctions [f]).assembly symbols config = .error cause) ∧
    (∀ u, (Program.ofFunctions functions).code symbols config = .ok u →
      u.functions.length = functions.length ∧
      ∀ before f after, functions = before ++ f :: after → ∃ v code,
        (Program.ofFunctions [f]).code symbols config = .ok v ∧ v.functions = [code] ∧
        v.data = u.data ∧ v.exports = u.exports ∧
        u.functions[before.length]? =
          some (renumberFunction (constructsOfAll before) code)) := by
  refine ⟨?_, ?_, ?_⟩
  · simp only [alone_ok]
    rw [assembly_ok, code_ofFunctions apart, ← joined_ok (l := {})]
    cases joined (unitEnv symbols config).alone {} functions <;> simp [Except.map]
  · intro cause
    simp only [alone_ok, alone_error]
    rw [assembly_error, code_ofFunctions apart, ← joined_error (l := {})]
    cases joined (unitEnv symbols config).alone {} functions <;> simp [Except.map]
  · intro u accepted
    rw [code_ofFunctions apart] at accepted
    cases codes : joined (unitEnv symbols config).alone {} functions with
    | error cause =>
      rw [codes] at accepted
      cases accepted
    | ok all =>
      rw [codes] at accepted
      cases accepted
      obtain ⟨length, each⟩ := joined_codes codes
      refine ⟨length, ?_⟩
      intro before f after split
      obtain ⟨c, alone, position⟩ := each before f after split
      rw [Labels.zero_add] at position
      refine ⟨unitOf symbols config [c.code], c.code, ?_, rfl, rfl, rfl, position⟩
      rw [code_ofFunction, alone]
      rfl

/-- A variable for each of two functions, in blocks of their own. -/
def apartSymbols : SymbolTable where
  functions := [⟨"first", "_first", []⟩, ⟨"second", "_second", [⟨1⟩]⟩]
  vars := [⟨"x", .int, ⟨0⟩⟩, ⟨"y", .char, ⟨5⟩⟩]

/-- A conditional inside a loop. -/
def apartFirst : FunctionDecl :=
  ⟨⟨0⟩, [], ⟨⟨0⟩, [.declare [⟨0⟩], .whileLoop (.ident .int ⟨0⟩)
    ⟨⟨1⟩, [.ifThen (.ident .int ⟨0⟩) ⟨⟨2⟩, []⟩]⟩]⟩⟩

/-- A loop of either kind and a conditional, in blocks that the other function has no part in. -/
def apartSecond : FunctionDecl :=
  ⟨⟨1⟩, [⟨1⟩], ⟨⟨6⟩, [.ifThen (.ident .char ⟨1⟩) ⟨⟨7⟩, [.ret none]⟩,
    .forLoop (.ident .char ⟨1⟩) (.ident .char ⟨1⟩) none
      ⟨⟨8⟩, [.whileLoop (.ident .char ⟨1⟩) ⟨⟨9⟩, []⟩]⟩]⟩⟩

theorem first_apart_second : Apart apartSymbols [apartFirst, apartSecond] := by
  simp only [Apart, List.pairwise_cons, List.mem_singleton, forall_eq]
  exact ⟨by decide, by simp⟩

theorem functions_compile_apart_branching :
    ∃ u v code, Apart apartSymbols [apartFirst, apartSecond] ∧
      (Program.ofFunctions [apartFirst, apartSecond]).code apartSymbols {} = .ok u ∧
      (Program.ofFunctions [apartSecond]).code apartSymbols {} = .ok v ∧
      v.functions = [code] ∧ u.functions[1]? = some (renumberFunction ⟨1, 0, 1⟩ code) := by
  obtain ⟨u, accepted⟩ : ∃ u, (Program.ofFunctions [apartFirst, apartSecond]).code
      apartSymbols {} = .ok u := ⟨_, rfl⟩
  obtain ⟨v, code, alone, only, _, _, position⟩ :=
    ((functions_compile_apart first_apart_second {}).2.2 u accepted).2 [apartFirst]
      apartSecond [] rfl
  exact ⟨u, v, code, first_apart_second, accepted, alone, only, position⟩

end Ia32Backend
