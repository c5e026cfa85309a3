import Ia32Backend.Proofs.Simulation.Function

/-!
Calls inside a unit. A call goes to the label of what it calls, so that functions carry out their
calls is proved for one unit of fuel after the other.
-/
namespace Ia32Backend

/-- What the code generator takes for granted of a program and its symbols. -/
structure Program.WellFormed (symbols : SymbolTable) (p : Program) : Prop where
  tidy : p.Tidy symbols
  /-- Variables are in scope, calls are of declared functions, and no address is taken. -/
  uses : ∀ f ∈ p.functions, ∀ use ∈ f.uses, use.2.names ⊆ use.1 ∧ use.2.Resolved p
  /-- The bytes of a frame can be counted in a word. -/
  few : ∀ f ∈ p.functions, f.vars.length < 2 ^ 30
  distinct : (p.labels symbols).Nodup
  free : ∀ name ∈ p.labels symbols, ¬ Generated name

/-- A unit is loaded, next to a runtime that it does not define. -/
structure Image.Loaded (m : Image) (config : Config) (u : UnitCode) : Prop where
  code : m.code = u.code
  external : ∀ name ∈ [config.startRoutine, config.pauseRoutine], name ∉ labelsOf u.code

/-- The strings of a unit. -/
def SymbolTable.strings (symbols : SymbolTable) (config : Config) : StringPool :=
  (StringPool.ofLiterals symbols.literals config.pauseText).2

namespace Image

/-- What trees mean in an image: a string is the address of its label. -/
def setting (m : Image) (symbols : SymbolTable) (config : Config) : Setting where
  symbols := symbols
  text node :=
    match (symbols.strings config).labelAt node with
    | .ok label => m.data label
    | .error _ => 0

/-- A text is stored right behind its label. -/
def Stores (m : Image) (label text : String) : Prop :=
  ∃ i, m.find label = some i ∧ m.Has i (StringPool.definition label text)

/-- How the runtime is asked for something. For a pause it is passed the address of the text. -/
def shows (m : Image) (config : Config) : Event → RuntimeCall → Prop
  | .started, r => r.routine = config.startRoutine
  | .paused, r => r.routine = config.pauseRoutine ∧
      ∃ label, m.Stores label config.pauseText ∧ r.argument = m.data label

/-- What the machine does from a state in which a function is called. -/
def Answers (m : Image) (config : Config) (bound : Nat) (run : Run Word) (w : World) (s : State) :
    Prop :=
  Simulates m (m.shows config) bound run w s fun x w' t =>
    w'.store = w.store ∧ m.Exited s.cpu x t

/-- Every function of a program, entered at its label, carries out its calls with so much fuel. -/
def Carried (m : Image) (symbols : SymbolTable) (config : Config) (p : Program) (fuel : Nat) :
    Prop :=
  ∀ f ∈ p.functions, ∀ symbol, symbols.functionAt f.symbol = .ok symbol →
    ∀ start, m.find symbol.label = some start → ∀ args c w log, c.Entered args →
      args.length = f.params.length → Shown (m.shows config) w.events log →
      m.Answers config fuel (p.call (m.setting symbols config) config fuel f.symbol args) w
        ⟨.inside start, c, log⟩

end Image

section
variable {symbols : SymbolTable} {config : Config} {p : Program} {u : UnitCode} {m : Image}
  {before after : List FunctionDecl} {f : FunctionDecl} {symbol : FunctionSymbol}

/-- A declared function is the one that a call of its symbol finds. -/
theorem Program.find_declared (distinct : (p.labels symbols).Nodup)
    (split : p.functions = before ++ f :: after)
    (found : symbols.functionAt f.symbol = .ok symbol) :
    (p.functions.find? fun g => g.symbol = f.symbol) = some f := by
  rw [List.find?_eq_some_iff_append]
  refine ⟨by simp, before, after, split, fun g member => ?_⟩
  have label := label_of_functionAt found
  rw [Program.labels, split, List.filterMap_append, List.filterMap_cons_some label,
    List.nodup_append] at distinct
  simp only [Bool.not_eq_true', decide_eq_false_iff_not]
  intro same
  have twice : g.label? symbols = some symbol.label := by
    rw [← label, FunctionDecl.label?, FunctionDecl.label?, same]
  exact distinct.2.2 _ (List.mem_filterMap.mpr ⟨g, member, twice⟩) _ List.mem_cons_self rfl

theorem Compiled.located {index : Nat} {layout : Layout} {strings : StringPool}
    {labels last : Labels} {copies body : List Instr}
    (compiled : Compiled symbols config u index f symbol layout strings labels last copies body)
    (code : m.code = u.code) (distinct : (labelsOf u.code).Nodup) :
    ∃ start, m.find symbol.label = some start ∧
      m.Has start (prologue symbol.label layout.reserved ++ symbol.startCall config ++ copies ++
        body ++ closing f.body.body) := by
  obtain ⟨before, after, _, split⟩ := UnitCode.code_split compiled.code
  have here := Image.has_middle (code.trans split)
  refine ⟨before.length, Image.find_eq (by rwa [code]) ?_, here⟩
  exact here 0 _ rfl

/-- Rule for a run with variables of its own. -/
theorem Simulates.of_own {shows : Event → RuntimeCall → Prop} {bound : Nat} {run : Run Word}
    {w : World} {s : State} {post : Word → State → Prop} (shown : Shown shows w.events s.log)
    (own : Simulates m shows bound run ⟨fun _ => 0, w.events⟩ s fun x _ t => post x t) :
    Simulates m shows bound run.withOwnVariables w s fun x w' t =>
      w'.store = w.store ∧ post x t := by
  have outer : Simulates m shows bound get w s fun a w' t => a = w ∧ w' = w ∧ t = s :=
    .of_outcome (fun _ => rfl) shown ⟨rfl, rfl, rfl⟩
  refine .bind outer ?_
  rintro _ _ _ _ ⟨rfl, rfl, rfl⟩
  refine .bind (.of_modify shown) ?_
  rintro _ _ _ _ ⟨rfl, rfl⟩
  refine .bind own ?_
  intro x w₁ t shown₁ right
  refine .bind (.of_modify shown₁) ?_
  rintro _ _ _ shown₂ ⟨rfl, rfl⟩
  exact .of_outcome (fun _ => rfl) shown₂ ⟨rfl, right⟩

/-- Calls in the code of a function carry out what they call. -/
theorem calls_of_carried {frame : Activation} {fuel : Nat}
    (same : frame.env.symbols = symbols)
    (located : ∀ f ∈ p.functions, ∀ symbol, symbols.functionAt f.symbol = .ok symbol →
      ∃ start, m.find symbol.label = some start)
    (carried : m.Carried symbols config p fuel) :
    (Site.mk m (m.shows config) frame fuel).Calls p
      (p.call (m.setting symbols config) config fuel) := by
  subst same
  intro i callee symbol g args c w log here found member same arity passes fits shown
  subst same
  obtain ⟨start, there⟩ := located g member symbol found
  have first : m.step ⟨.inside i, c, log⟩ = _ := Image.step_inside here
  simp only [Image.perform, Image.call, there] at first
  cases pushed : c.push (m.back i) with
  | error trap =>
    rw [pushed] at first
    cases Cpu.push_stack pushed
    exact .of_stack ⟨0, _, .refl _, first, rfl⟩
  | ok c' =>
    rw [pushed] at first
    refine .after_steps (.head first (.refl _)) (Nat.le_add_right _ _) (.mono (Nat.le_refl _) ?_
      (carried g member symbol found start there args c' w log (entered_pushed pushed passes fits)
        arity.symm shown))
    rintro x w' t ⟨store, exited⟩
    obtain ⟨_, top, _, _⟩ := Cpu.push_effect pushed
    refine ⟨store, ?_, returned_exited pushed exited, exited.result⟩
    rw [exited.pos, top, Image.locate_back here]

/-- Every declared function stands somewhere under its label. -/
theorem Program.located (accepted : p.code symbols config = .ok u)
    (wellFormed : p.WellFormed symbols) (code : m.code = u.code) :
    ∀ f ∈ p.functions, ∀ symbol, symbols.functionAt f.symbol = .ok symbol →
      ∃ start, m.find symbol.label = some start := by
  intro f member symbol found
  obtain ⟨before, after, split⟩ := List.append_of_mem member
  obtain ⟨_, _, _, _, _, _, _, _, _, _, compiled⟩ := Program.compiled accepted split
  cases found.symm.trans compiled.found
  obtain ⟨start, there, _⟩ :=
    compiled.located code (labels_distinct accepted wellFormed.distinct wellFormed.free)
  exact ⟨start, there⟩

theorem Image.stores_of_data (code : m.code = u.code) (distinct : (labelsOf u.code).Nodup)
    {label text : String} (stored : StringPool.definition label text <:+: u.data) :
    m.Stores label text := by
  obtain ⟨before, after, split⟩ := stored
  have whole : m.code = before ++ StringPool.definition label text ++
      (after ++ u.exports ++ u.functions.flatten) := by
    rw [code, UnitCode.code, ← split]
    simp only [List.append_assoc]
  have here := Image.has_middle whole
  exact ⟨before.length, Image.find_eq (by rwa [code]) (here 0 _ rfl), here⟩

theorem Image.runtime_of_loaded {site : Site} (loaded : m.Loaded config u)
    (distinct : (labelsOf u.code).Nodup) (image : site.image = m)
    (shows : site.shows = m.shows config) (env : site.frame.env.config = config)
    (pool : StringPool.ofLiterals symbols.literals config.pauseText =
      (u.data, site.frame.env.strings)) : site.Runtime := by
  subst image env
  refine ⟨fun name routine => ?_, fun x => ?_, fun label pooled => ?_⟩
  · exact Image.find_none (by rw [loaded.code]; exact loaded.external name routine)
  · rw [shows]
    rfl
  · rw [shows]
    have stored : (StringPool.ofLiterals symbols.literals
        site.frame.env.config.pauseText).2.pauseLabel = .ok label → _ :=
      StringPool.stored_pause _ _
    rw [pool] at stored
    exact ⟨rfl, label, Image.stores_of_data loaded.code distinct (stored pooled), rfl⟩

/-- Every function of a loaded unit carries out its calls. -/
theorem Program.carried (accepted : p.code symbols config = .ok u)
    (wellFormed : p.WellFormed symbols) (loaded : m.Loaded config u) :
    ∀ fuel, m.Carried symbols config p fuel := by
  have distinct := labels_distinct accepted wellFormed.distinct wellFormed.free
  intro fuel
  induction fuel with
  | zero => exact fun _ _ _ _ _ _ _ _ _ _ _ _ shown => .of_outOfFuel shown
  | succ fuel ih =>
    intro f member symbol found start there args c w log entered count shown
    obtain ⟨before, after, split⟩ := List.append_of_mem member
    obtain ⟨frames, _, layout, strings, labels, last, copies, body, frame, laid, compiled⟩ :=
      Program.compiled accepted split
    cases found.symm.trans compiled.found
    obtain ⟨scopes, bytes⟩ := Program.laid wellFormed.tidy split frame laid
    obtain ⟨_, position, here⟩ := compiled.located loaded.code distinct
    cases there.symm.trans position
    have few := wellFormed.few f member
    have pool : strings = symbols.strings config := by
      rw [SymbolTable.strings, compiled.pool]
    rw [Image.Answers, Program.call, Program.find_declared wellFormed.distinct split found]
    refine .of_own shown ?_
    refine compiled.carries_invoke ⟨m, m.shows config,
      .of ⟨symbols, config, strings, layout.frames⟩ layout.reserved c, fuel⟩ rfl rfl ?_
      (Image.runtime_of_loaded loaded distinct rfl rfl rfl compiled.pool)
      (by rw [loaded.code]; exact distinct)
      (calls_of_carried rfl (Program.located accepted wellFormed loaded.code) ih) scopes (by omega)
      (wellFormed.uses f member) (Nat.le_refl _) here entered count shown
    intro node label found
    simp only [Activation.of, pool] at found
    simp only [Image.setting, found]

end

end Ia32Backend
