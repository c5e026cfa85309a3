import Mathlib
import Ia32Backend.Proofs.Simulation.Unit

/-!
The code of a unit does what its source means. Every function that is entered under its label comes
to the word that a call of it results in, faults where its source divides without a quotient, and
goes on for as long as its source does, asking the runtime for the same on the way. Only the stack
may end earlier. Words that the language leaves open are some words.
-/
namespace Ia32Backend

/-- How a run ends where the open words are the given ones. -/
def Run.Ends {α : Type} (run : Run α) (w : World) (words : List Word) (outcome : Outcome α) :
    Prop :=
  ∀ later, run.outcome w (words ++ later) = (outcome, later)

/-- The machine does from a state what a run means that is given for each amount of fuel. -/
structure Preserves {α : Type} (m : Image) (shows : Event → RuntimeCall → Prop) (run : Nat → Run α)
    (w : World) (s : State) (post : α → World → State → Prop) : Prop where
  /-- What the run comes to without open words, the machine comes to as well. -/
  forward : ∀ fuel outcome, (run fuel).Ends w [] outcome → Carries m shows fuel s post outcome
  /-- What the machine does is what the run does for some open words. It ends with some fuel, or
  with none and the machine goes on for ever. -/
  backward :
    (∃ fuel words outcome, (run fuel).Ends w words outcome ∧ outcome.1 ≠ .error .outOfFuel ∧
      Carries m shows fuel s post outcome) ∨
    ∀ fuel, ∃ words w', (run fuel).Ends w words (.error .outOfFuel, w') ∧
      ∃ n t, fuel ≤ n ∧ m.Steps n s t ∧ Shown shows w'.events t.log

theorem preserves_of_simulates {α : Type} {m : Image} {shows : Event → RuntimeCall → Prop}
    {run : Nat → Run α} {w : World} {s : State} {post : α → World → State → Prop}
    (each : ∀ fuel, Simulates m shows fuel (run fuel) w s post) :
    (∃ log, m.Traps s .stack log) ∨ Preserves m shows run w s post := by
  by_cases stack : ∃ log, m.Traps s .stack log
  · exact Or.inl stack
  have carried : ∀ fuel, ∃ words outcome, (run fuel).Ends w words outcome ∧
      Carries m shows fuel s post outcome := fun fuel => (each fuel).resolve_left stack
  refine Or.inr ⟨?_, ?_⟩
  · intro fuel outcome ends
    obtain ⟨words, other, same, carries⟩ := carried fuel
    obtain ⟨rfl, _⟩ := Prod.mk.inj ((ends (words ++ [])).symm.trans (same []))
    exact carries
  · by_cases finishes : ∃ fuel words outcome, (run fuel).Ends w words outcome ∧
        outcome.1 ≠ .error .outOfFuel ∧ Carries m shows fuel s post outcome
    · exact Or.inl finishes
    · refine Or.inr fun fuel => ?_
      obtain ⟨words, ⟨result, w'⟩, ends, carries⟩ := carried fuel
      by_cases spent : result = .error .outOfFuel
      · subst spent
        exact ⟨words, w', ends, carries⟩
      · exact absurd ⟨fuel, words, _, ends, spent, carries⟩ finishes

/-- Semantic preservation of a whole unit. -/
theorem semantics_preserved {symbols : SymbolTable} {config : Config} {p : Program} {u : UnitCode}
    {m : Image} (accepted : p.code symbols config = .ok u) (wellFormed : p.WellFormed symbols)
    (loaded : m.Loaded config u) :
    (∀ node label, (symbols.strings config).labelAt node = .ok label →
      ∃ l ∈ symbols.literals, l.node = node ∧ m.Stores label l.text) ∧
    ∀ f ∈ p.functions, ∃ symbol start, symbols.functionAt f.symbol = .ok symbol ∧
      m.find symbol.label = some start ∧
      ∀ args c w log, c.Entered args → args.length = f.params.length →
        Shown (m.shows config) w.events log →
        (∃ calls, m.Traps ⟨.inside start, c, log⟩ .stack calls) ∨
        Preserves m (m.shows config)
          (fun fuel => p.call (m.setting symbols config) config fuel f.symbol args) w
          ⟨.inside start, c, log⟩ fun x w' t => w'.store = w.store ∧ m.Exited c x t := by
  have distinct := labels_distinct accepted wellFormed.distinct wellFormed.free
  constructor
  · intro node label found
    obtain ⟨strings, pool, _⟩ := Program.code_ok accepted
    obtain ⟨l, member, same, stored⟩ :=
      StringPool.stored_ofLiterals symbols.literals config.pauseText found
    rw [pool] at stored
    exact ⟨l, member, same, Image.stores_of_data loaded.code distinct stored⟩
  · intro f member
    obtain ⟨before, after, split⟩ := List.append_of_mem member
    obtain ⟨_, symbol, _, _, _, _, _, _, _, _, compiled⟩ := Program.compiled accepted split
    obtain ⟨start, there, _⟩ := compiled.located loaded.code distinct
    refine ⟨symbol, start, compiled.found, there, ?_⟩
    intro args c w log entered count shown
    exact preserves_of_simulates fun fuel => Program.carried accepted wellFormed loaded fuel f
      member symbol compiled.found start there args c w log entered count shown

/-- Code by itself in memory, one address for each instruction. Its runtime does nothing. -/
def Image.ofCode (code : List Instr) (fits : code.length < 2 ^ 32) : Image where
  code := code
  data := fun name => BitVec.ofNat 32 (code.idxOf (.label name))
  back := fun i => BitVec.ofNat 32 (i + 1)
  apart := by
    intro i j first second same
    have inside : ∀ k, code[k]?.any Instr.isCall → k < code.length := by
      intro k call
      by_contra beyond
      rw [List.getElem?_eq_none (by omega)] at call
      cases call
    have left := inside i first
    have right := inside j second
    have equal := congrArg BitVec.toNat same
    simp only [BitVec.toNat_ofNat] at equal
    omega
  runtime := fun _ _ c => c
  returns := fun _ _ _ => ⟨fun _ _ => rfl, fun _ _ => rfl⟩

def truncatingSymbols : SymbolTable where
  functions := [⟨"main", "_main", []⟩, ⟨"half", "_half", [⟨0⟩]⟩]
  vars := [⟨"c", .char, ⟨0⟩⟩]

/-- An argument that loses its high bytes, a quotient that is cut off, and an operand that waits for
a call. -/
def truncating : Program where
  body := [
    .function ⟨⟨1⟩, [⟨0⟩], ⟨⟨0⟩, [
      .ret (some (.binary .int .divide (.ident .char ⟨0⟩) (.lit .int ⟨0⟩ (.int 2))))]⟩⟩,
    .function ⟨⟨0⟩, [], ⟨⟨1⟩, [
      .ret (some (.binary .int .plus (.lit .int ⟨1⟩ (.int 100))
        (.call .int ⟨1⟩ [.lit .int ⟨2⟩ (.int 301)])))]⟩⟩]

theorem truncating_wellFormed : truncating.WellFormed truncatingSymbols := by
  refine ⟨?_, by decide, by decide, by decide, ?_⟩
  · intro before f after split
    have functions : truncating.functions =
        [truncating.functions[0], truncating.functions[1]] := rfl
    rw [functions] at split
    match before, split with
    | [], split =>
      cases split
      exact ⟨by decide, by decide, by decide, ⟨0⟩, by decide, by decide⟩
    | [_], split =>
      cases split
      exact ⟨by decide, by decide, by decide, ⟨9⟩, by decide, by decide⟩
    | _ :: _ :: rest, split => simp at split
  · exact fun name member => not_generated (by revert name; decide)

theorem truncating_ends {s : Setting} (symbols : s.symbols = truncatingSymbols) :
    (truncating.call s {} 2 ⟨0⟩ []).Ends ⟨fun _ => 0, []⟩ []
      (.ok 122, ⟨fun _ => 0, [.started, .paused]⟩) := by
  obtain ⟨_, _⟩ := s
  cases symbols
  intro later
  cbv

theorem semantics_preserved_truncating :
    ∃ u fits start, truncating.code truncatingSymbols {} = .ok u ∧
      (Image.ofCode u.code fits).find "_main" = some start ∧ ∀ c, c.Entered [] →
        (∃ log, (Image.ofCode u.code fits).Traps ⟨.inside start, c, []⟩ .stack log) ∨
        ∃ n t, (Image.ofCode u.code fits).Steps n ⟨.inside start, c, []⟩ t ∧
          (Image.ofCode u.code fits).Exited c 122 t ∧
          Shown ((Image.ofCode u.code fits).shows {}) [.started, .paused] t.log := by
  obtain ⟨u, accepted⟩ : ∃ u, truncating.code truncatingSymbols {} = .ok u := ⟨_, rfl⟩
  have fits : u.code.length < 2 ^ 32 := by
    cases accepted
    decide
  have loaded : (Image.ofCode u.code fits).Loaded {} u := ⟨rfl, by cases accepted; decide⟩
  obtain ⟨_, each⟩ := semantics_preserved accepted truncating_wellFormed loaded
  obtain ⟨symbol, start, found, there, carries⟩ := each _ (List.mem_cons_of_mem _
    List.mem_cons_self)
  cases found
  refine ⟨u, fits, start, accepted, there, fun c entered => ?_⟩
  refine (carries [] c ⟨fun _ => 0, []⟩ [] entered rfl .nil).imp_right fun preserved => ?_
  obtain ⟨n, t, steps, shown, _, exited⟩ := preserved.forward 2 _ (truncating_ends rfl)
  exact ⟨n, t, steps, exited, shown⟩

end Ia32Backend
