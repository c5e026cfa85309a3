import Ia32Backend.Proofs.Simulation.Entry

/-!
Functions: the code of each function of a unit, entered at its label, carries out what a call of it
means. A call inside goes through the same label, so the claim is proved for one unit of fuel after
the other.
-/
namespace Ia32Backend

namespace Site

section
variable {site : Site} {scope : List VarId}

/-- The call with which the entry function starts the runtime. -/
theorem carries_start {config : Config} {symbol : FunctionSymbol} {i : Nat} {c : Cpu} {w : World}
    {log : List RuntimeCall} (same : site.frame.env.config = config)
    (laid : Layout.Laid site.frame.env.symbols site.frame.env.frames site.frame.reserved scope)
    (runtime : site.Runtime) (here : site.image.Has i (symbol.startCall config))
    (holds : site.frame.Holds scope w.store c) (shown : Shown site.shows w.events log) :
    Simulates site.image site.shows site.bound (startWhen (symbol.name = config.entryName)) w
      ⟨.inside i, c, log⟩
      (site.Ends scope c (i + (symbol.startCall config).length) fun _ _ => True) := by
  subst same
  unfold FunctionSymbol.startCall at here ⊢
  split
  · rename_i entry
    rw [if_pos entry] at here
    rw [decide_eq_true entry]
    refine .after_routine (Image.has_cons.mp here).1 (runtime.external _ (by simp)) ?_
    obtain ⟨kept, held⟩ := Activation.after_call (site.image.returns log _ c) laid holds
    exact .of_outcome (fun _ => rfl) (shown_report shown (runtime.started c.top))
      ⟨⟨rfl, kept, held⟩, trivial⟩
  · rename_i other
    rw [decide_eq_false other]
    exact .of_outcome (fun _ => rfl) shown ⟨⟨rfl, Activation.kept_refl _ c, holds⟩, trivial⟩

/-- Whatever a function's body came to, its frame is taken down and a word is returned. -/
theorem carries_closing {body : List Stmt} {flow : Flow} {i : Nat} {c : Cpu} {w : World} {t : State}
    (tall : site.frame.base.toNat + 8 ≤ 2 ^ 32)
    (room : (c.reg .sp).toNat ≤ site.frame.base.toNat)
    (here : site.image.Has i (closing body)) (shown : Shown site.shows w.events t.log)
    (flows : site.Flows scope c i (endsInReturn body) flow w t) :
    Simulates site.image site.shows site.bound flow.result w t
      fun x _ t' => site.Left c t' ∧ t'.cpu.reg .ax = x := by
  cases flow with
  | next =>
    obtain ⟨⟨position, kept, holds⟩, ends⟩ := flows
    obtain ⟨pos, cpu, log⟩ := t
    cases position
    rw [closing, ends] at here
    obtain ⟨last, steps, left, _, same⟩ := steps_epilogue log here holds.base
    refine .after_steps steps (Nat.le_add_right _ _) (.of_choose ?_ ⟨?_, rfl⟩)
    · rw [same]
      exact shown
    · exact left_later tall room kept left
  | returned r =>
    obtain ⟨left, result⟩ := flows
    cases r with
    | none => exact .of_choose shown ⟨left, rfl⟩
    | some x => exact .of_outcome (fun _ => rfl) shown ⟨left, result x rfl⟩

end

end Site

section
variable {symbols : SymbolTable} {config : Config} {p : Program} {u : UnitCode} {index : Nat}
  {f : FunctionDecl} {symbol : FunctionSymbol} {layout : Layout} {strings : StringPool}
  {labels last : Labels} {copies body : List Instr} {s : Setting}
  {call : FunctionId → List Word → Run Word} {fuel : Nat}

/-- The code of a function, entered at its first instruction. -/
theorem Compiled.carries_invoke (site : Site)
    (compiled : Compiled symbols config u index f symbol layout strings labels last copies body)
    {i : Nat} {c : Cpu} {w : World} {log : List RuntimeCall} {args : List Word}
    (frame : site.frame =
      Activation.of ⟨symbols, config, strings, layout.frames⟩ layout.reserved c)
    (setting : s.symbols = symbols) (texts : site.Texts s) (runtime : site.Runtime)
    (distinct : (labelsOf site.image.code).Nodup) (calls : site.Calls p call)
    (laid : ∀ scope ∈ f.scopes, Layout.Laid symbols layout.frames layout.reserved scope)
    (small : layout.reserved < 2 ^ 32)
    (uses : ∀ use ∈ f.uses, use.2.names ⊆ use.1 ∧ use.2.Resolved p) (enough : site.bound ≤ fuel)
    (here : site.image.Has i (prologue symbol.label layout.reserved ++ symbol.startCall config ++
      copies ++ body ++ closing f.body.body))
    (entered : c.Entered args) (count : args.length = f.params.length)
    (shown : Shown site.shows w.events log) :
    Simulates site.image site.shows (site.bound + 1) (f.invoke s config call fuel args) w
      ⟨.inside i, c, log⟩ fun x _ t => site.image.Exited c x t := by
  have env : site.frame.env = ⟨symbols, config, strings, layout.frames⟩ := by rw [frame]; rfl
  have reserved : site.frame.reserved = layout.reserved := by rw [frame]; rfl
  have baseIs : site.frame.base = c.reg .sp - 4 := by rw [frame]; rfl
  obtain ⟨here, hereClosing⟩ := Image.has_append.mp here
  obtain ⟨here, hereBody⟩ := Image.has_append.mp here
  obtain ⟨here, hereCopies⟩ := Image.has_append.mp here
  obtain ⟨herePrologue, hereStart⟩ := Image.has_append.mp here
  simp only [List.length_append, ← Nat.add_assoc] at hereClosing hereBody hereCopies
  refine .after_code site.bound herePrologue (fun _ => prologue_stack)
    (by simp only [prologue, List.length_append, List.length_cons]; omega) ?_
  intro c₁ ran
  obtain ⟨room, within⟩ := within_prologue small ran
  have holds : site.frame.Holds [] w.store c₁ := by
    rw [frame]
    exact holds_entered room within
  have link := room.linkAddress
  have fits := entered.room
  have tall : site.frame.base.toNat + 8 ≤ 2 ^ 32 := by rw [baseIs]; omega
  have points : ∀ scope ∈ f.scopes, Layout.Laid site.frame.env.symbols site.frame.env.frames
      site.frame.reserved scope := by
    rw [env, reserved]
    exact laid
  have params := points f.params (scope_mem_scopesOf _ _)
  rw [FunctionDecl.invoke, setting, isEntry_eq compiled.found]
  refine .bind (Site.carries_start (by rw [env]) (Layout.laid_subset params (List.nil_subset _))
    runtime hereStart holds shown) ?_
  rintro _ w₂ ⟨_, c₂, log₂⟩ shown₂ ⟨⟨rfl, kept₂, holds₂⟩, _⟩
  have arrived : site.Arrived 0 args c₂ := Site.arrived_entered frame room within entered kept₂
    holds.room
  rw [← List.nil_append f.params] at params
  refine .bind (Site.carries_copies (by rw [setting, env]) (by rw [env]; exact compiled.copied)
    count arrived (by rw [baseIs]; omega) params hereCopies holds₂ shown₂) ?_
  rintro _ w₃ ⟨_, c₃, log₃⟩ shown₃ ⟨⟨rfl, kept₃, holds₃⟩, _⟩
  have evaluates : site.Evaluates p (Expr.eval s call) := fun here used ok =>
    Site.does_unspared (Site.does_expr (by rw [setting, env]) texts calls here _ _ ok used.1 used.2)
  have body := Site.runs_body tall distinct runtime enough evaluates f.body.body _ _ _ _ f.params
    (by rw [env]; exact compiled.inside) points uses _ c₃ w₃ log₃ hereBody holds₃ shown₃
  refine .bind body ?_
  rintro flow w₄ t shown₄ flows
  have kept := Activation.kept_trans kept₂ kept₃
  have below := Nat.le_trans (Nat.le_add_right _ _) holds₃.room
  refine .mono (Nat.le_refl _) ?_ (Site.carries_closing tall below hereClosing shown₄ flows)
  rintro x w₅ t' ⟨left, result⟩
  refine exited_of_left frame room within entered (Site.left_later tall ?_ kept left) result
  exact Nat.le_trans (Nat.le_add_right _ _) holds.room

end

end Ia32Backend
