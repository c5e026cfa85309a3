import Ia32Backend.Proofs.FunctionLabels
import Mathlib.Data.List.Nodup
import Mathlib.Logic.Relation

/-!
Labels of a whole unit. Function labels are the author's, all others the code generator's; where the
author's are distinct and keep clear of its shapes, every label is defined once, a jump stays in its
function, and an address names string data.
-/
namespace Ia32Backend

namespace StringPool

theorem labelsOf_addLiterals (p : StringPool) (literals : List StringLiteral) :
    labelsOf (p.addLiterals literals).1 =
      (List.range' p.count literals.length).map (numbered "SL") := by
  induction literals generalizing p with
  | nil => rfl
  | cons l rest ih =>
    simp only [addLiterals, addLiteral, definition, labelsOf_append, ih, List.length_cons,
      List.range'_succ, List.map_cons]
    rfl

theorem count_addLiterals (p : StringPool) (literals : List StringLiteral) :
    (p.addLiterals literals).2.count = p.count + literals.length := by
  induction literals generalizing p with
  | nil => rfl
  | cons l rest ih =>
    simp only [addLiterals, ih, addLiteral, List.length_cons]
    omega

/-- Data of a pool has no jumps and takes no addresses. -/
theorem quiet_addLiterals (p : StringPool) (literals : List StringLiteral) :
    targetsOf (p.addLiterals literals).1 = [] ∧ addressesOf (p.addLiterals literals).1 = [] := by
  induction literals generalizing p with
  | nil => exact ⟨rfl, rfl⟩
  | cons l rest ih =>
    obtain ⟨targets, addresses⟩ := ih (p.addLiteral l).pool
    simp only [addLiterals, targetsOf_append, addressesOf_append, targets, addresses]
    exact ⟨rfl, rfl⟩

theorem stored_addLiterals (p : StringPool) (literals : List StringLiteral) {node : NodeId}
    {name : String} (found : (p.addLiterals literals).2.labelAt node = .ok name) :
    p.labelAt node = .ok name ∨ ∃ l ∈ literals, l.node = node ∧
      definition name l.text <:+: (p.addLiterals literals).1 := by
  induction literals generalizing p with
  | nil => exact Or.inl found
  | cons l rest ih =>
    rcases ih (p.addLiteral l).pool found with before | ⟨other, member, same, stored⟩
    · by_cases same : node = l.node
      · subst node
        rw [labelAt_addLiteral] at before
        cases before
        exact Or.inr ⟨l, List.mem_cons_self, rfl, (List.prefix_append _ _).isInfix⟩
      · rw [labelAt_addLiteral_of_ne p l same] at before
        exact Or.inl before
    · exact Or.inr ⟨other, List.mem_cons_of_mem _ member, same,
        stored.trans (List.suffix_append _ _).isInfix⟩

section
variable (literals : List StringLiteral) (pauseText : String)

theorem labelsOf_ofLiterals : labelsOf (ofLiterals literals pauseText).1 =
    (List.range (literals.length + 1)).map (numbered "SL") := by
  have last : labelsOf ((addLiterals {} literals).2.addPause pauseText).data =
      [numbered "SL" literals.length] := by
    have count := count_addLiterals {} literals
    rw [Nat.zero_add] at count
    rw [← count]
    rfl
  simp only [ofLiterals, labelsOf_append, labelsOf_addLiterals, last, List.range_succ,
    List.map_append, List.range_eq_range']
  rfl

theorem quiet_ofLiterals : targetsOf (ofLiterals literals pauseText).1 = [] ∧
    addressesOf (ofLiterals literals pauseText).1 = [] := by
  obtain ⟨targets, addresses⟩ := quiet_addLiterals {} literals
  simp only [ofLiterals, targetsOf_append, addressesOf_append, targets, addresses]
  exact ⟨rfl, rfl⟩

/-- A literal's label stands before its text. -/
theorem stored_ofLiterals {node : NodeId} {name : String}
    (found : (ofLiterals literals pauseText).2.labelAt node = .ok name) :
    ∃ l ∈ literals, l.node = node ∧
      definition name l.text <:+: (ofLiterals literals pauseText).1 := by
  rcases stored_addLiterals {} literals found with before | ⟨l, member, same, stored⟩
  · simp [labelAt] at before
  · exact ⟨l, member, same, stored.trans (List.prefix_append _ _).isInfix⟩

theorem stored_pause {name : String}
    (found : (ofLiterals literals pauseText).2.pauseLabel = .ok name) :
    definition name pauseText <:+: (ofLiterals literals pauseText).1 := by
  cases found
  exact (List.suffix_append _ _).isInfix

theorem defined_of_stored {name text : String} {code : List Instr}
    (stored : definition name text <:+: code) : name ∈ labelsOf code :=
  mem_labelsOf.mpr (stored.subset List.mem_cons_self)

theorem pooled_ofLiterals {name : String}
    (pooled : (ofLiterals literals pauseText).2.Pooled name) :
    name ∈ labelsOf (ofLiterals literals pauseText).1 := by
  rcases pooled with ⟨node, found⟩ | pause
  · obtain ⟨_, _, _, stored⟩ := stored_ofLiterals literals pauseText found
    exact defined_of_stored stored
  · exact defined_of_stored (stored_pause literals pauseText pause)

end

end StringPool

/-! Functions one after another. -/

theorem functionsCode_labels {body : List Stmt} :
    ∀ {env : Env} {l : Labels} {codes : List (List Instr)}, functionsCode env l body = .ok codes →
      ∃ last inner, Branches l last inner ∧
        (labelsOf codes.flatten).Perm (Program.labels env.symbols ⟨body⟩ ++ labelsOf inner) := by
  induction body with
  | nil =>
    intro env l codes ok
    cases pure_eq_ok.mp ok
    exact ⟨l, [], branches_straight l ⟨rfl, rfl⟩, .refl _⟩
  | cons s rest ih =>
    intro env l codes ok
    obtain ⟨f, first, later, rfl, here, ahead, rfl⟩ := functionsCode_cons_ok ok
    obtain ⟨label, named, function⟩ := f.labels_code here
    obtain ⟨inner, branches, labels, _⟩ := function.labels
    obtain ⟨last, deeper, more, order⟩ := ih ahead
    refine ⟨last, inner ++ deeper, branches_append branches more, ?_⟩
    have declared : Program.labels env.symbols ⟨.function f :: rest⟩ =
        label :: Program.labels env.symbols ⟨rest⟩ := by
      simp [Program.labels, Program.functions, named]
    rw [List.flatten_cons, labelsOf_append, labelsOf_append, labels, declared]
    exact ((order.append_left _).trans (List.perm_append_comm_assoc _ _ _)).cons label

theorem functionsCode_each {body : List Stmt} :
    ∀ {env : Env} {l : Labels} {codes : List (List Instr)}, functionsCode env l body = .ok codes →
      ∀ code ∈ codes, ∃ label ∈ Program.labels env.symbols ⟨body⟩, ∃ before after,
        FunctionLabels env.strings before after label code := by
  induction body with
  | nil =>
    intro env l codes ok
    cases pure_eq_ok.mp ok
    exact fun _ member => (List.not_mem_nil member).elim
  | cons s rest ih =>
    intro env l codes ok code member
    obtain ⟨f, first, later, rfl, here, ahead, rfl⟩ := functionsCode_cons_ok ok
    obtain ⟨label, named, function⟩ := f.labels_code here
    have declared : Program.labels env.symbols ⟨.function f :: rest⟩ =
        label :: Program.labels env.symbols ⟨rest⟩ := by
      simp [Program.labels, Program.functions, named]
    rw [declared]
    rcases List.mem_cons.mp member with rfl | deeper
    · exact ⟨label, List.mem_cons_self, l, first.labels, function⟩
    · obtain ⟨name, known, before, after, rest⟩ := ih ahead code deeper
      exact ⟨name, List.mem_cons_of_mem _ known, before, after, rest⟩

theorem FunctionLabels.closed {pool : StringPool} {l last : Labels} {label : String}
    {code : List Instr} (function : FunctionLabels pool l last label code) :
    ∀ name ∈ targetsOf code, name ∈ labelsOf code := by
  obtain ⟨inner, branches, labels, targets⟩ := function.labels
  intro name member
  rw [targets] at member
  rw [labels]
  exact List.mem_cons_of_mem _ (branches.closed name member)

/-! Where control can go. -/

/-- Where control may be after the instruction at a position, without entering a call or returning
from the function: a call goes on behind itself. -/
inductive Follows (code : List Instr) : Nat → Nat → Prop where
  | next {here : Nat} {i : Instr} (found : code[here]? = some i) (goesOn : i ≠ .ret)
      (falls : ∀ name, i ≠ .jmp name) : Follows code here (here + 1)
  | jump {here there : Nat} {i : Instr} {name : String} (found : code[here]? = some i)
      (target : i.target = some name) (defined : code[there]? = some (.label name)) :
      Follows code here there

/-- Position of the code of the function with a given number. -/
def UnitCode.start (u : UnitCode) (k : Nat) : Nat :=
  (u.data ++ u.exports ++ (u.functions.take k).flatten).length

theorem UnitCode.code_split {u : UnitCode} {k : Nat} {code : List Instr}
    (found : u.functions[k]? = some code) :
    ∃ before after, before.length = u.start k ∧ u.code = before ++ code ++ after := by
  refine ⟨u.data ++ u.exports ++ (u.functions.take k).flatten,
    (u.functions.drop (k + 1)).flatten, rfl, ?_⟩
  obtain ⟨bound, entry⟩ := List.getElem?_eq_some_iff.mp found
  have split : u.functions = u.functions.take k ++ code :: u.functions.drop (k + 1) := by
    rw [← entry, ← List.drop_eq_getElem_cons bound, List.take_append_drop]
  have flat := congrArg List.flatten split
  rw [List.flatten_append, List.flatten_cons] at flat
  rw [UnitCode.code, flat]
  simp only [List.append_assoc]

theorem getElem?_middle {before code after : List Instr} {pos : Nat} (low : before.length ≤ pos)
    (high : pos < before.length + code.length) :
    (before ++ code ++ after)[pos]? = code[pos - before.length]? := by
  rw [List.append_assoc, List.getElem?_append_right low, List.getElem?_append_left (by omega)]

/-- A label that the middle part defines stands nowhere else. -/
theorem label_in_middle {before code after : List Instr} {there : Nat} {name : String}
    (distinct : (labelsOf (before ++ code ++ after)).Nodup) (inside : name ∈ labelsOf code)
    (defined : (before ++ code ++ after)[there]? = some (.label name)) :
    before.length ≤ there ∧ there < before.length + code.length := by
  simp only [labelsOf_append, List.nodup_append, List.mem_append] at distinct
  obtain ⟨⟨_, _, apartBefore⟩, _, apartAfter⟩ := distinct
  constructor
  · by_contra low
    rw [List.append_assoc, List.getElem?_append_left (by omega)] at defined
    exact apartBefore name (mem_labelsOf.mpr (List.mem_of_getElem? defined)) name inside rfl
  · by_contra high
    rw [List.getElem?_append_right (by rw [List.length_append]; omega)] at defined
    exact apartAfter name (Or.inr inside) name
      (mem_labelsOf.mpr (List.mem_of_getElem? defined)) rfl

theorem follows_stays {before code after : List Instr} {here there : Nat}
    (distinct : (labelsOf (before ++ code ++ after)).Nodup)
    (closed : ∀ name ∈ targetsOf code, name ∈ labelsOf code) (ends : epilogue <:+ code)
    (inside : before.length ≤ here ∧ here < before.length + code.length)
    (step : Follows (before ++ code ++ after) here there) :
    before.length ≤ there ∧ there < before.length + code.length := by
  obtain ⟨low, high⟩ := inside
  cases step with
  | next found goesOn falls =>
    refine ⟨by omega, ?_⟩
    by_contra beyond
    rw [getElem?_middle low high] at found
    obtain ⟨body, rfl⟩ := ends
    have lastOne : here - before.length = body.length + 1 := by
      simp only [List.length_append, epilogue, List.length_cons, List.length_nil] at high beyond
      omega
    rw [lastOne, List.getElem?_append_right (Nat.le_add_right _ 1), Nat.add_sub_cancel_left]
      at found
    exact goesOn (Option.some.inj found).symm
  | jump found target defined =>
    rw [getElem?_middle low high] at found
    have jumps := List.mem_filterMap.mpr ⟨_, List.mem_of_getElem? found, target⟩
    exact label_in_middle distinct (closed _ jumps) defined

/-- The parts of a unit in which its labels stand: string data, functions, branches. -/
theorem labels_distinct {symbols : SymbolTable} {config : Config} {p : Program} {u : UnitCode}
    (accepted : p.code symbols config = .ok u) (distinct : (p.labels symbols).Nodup)
    (free : ∀ name ∈ p.labels symbols, ¬ Generated name) : (labelsOf u.code).Nodup := by
  obtain ⟨strings, data, functions, exports⟩ := Program.code_ok accepted
  obtain ⟨last, inner, branches, order⟩ := functionsCode_labels functions
  have stringLabels : labelsOf u.data =
      (List.range (symbols.literals.length + 1)).map (numbered "SL") := by
    rw [← StringPool.labelsOf_ofLiterals symbols.literals config.pauseText, data]
  have noExports : labelsOf u.exports = [] := by
    rw [exports]
    exact List.filterMap_eq_nil_iff.mpr (by simp)
  have clear := generatedStems_noDigits "SL" (by decide)
  have stringsDistinct : (labelsOf u.data).Nodup := by
    rw [stringLabels]
    exact List.Nodup.map (fun m n same => (numbered_injective clear clear same).2)
      List.nodup_range
  have generated : ∀ name ∈ labelsOf u.data, Generated name := by
    intro name member
    rw [stringLabels] at member
    obtain ⟨n, _, rfl⟩ := List.mem_map.mp member
    exact ⟨"SL", by decide, n, rfl⟩
  have notBranch : ∀ name ∈ labelsOf u.data, name ∉ labelsOf inner := by
    intro name member branch
    rw [stringLabels] at member
    obtain ⟨n, _, rfl⟩ := List.mem_map.mp member
    obtain ⟨stem, known, m, _, _, same⟩ := branches.drawn _ branch
    have stems := (numbered_injective clear
      (generatedStems_noDigits _ (Labels.generated_of_mem_stems stem known)) same).1
    simp only [Labels.stems, List.mem_cons, List.not_mem_nil, or_false] at known
    rcases known with rfl | rfl | rfl | rfl | rfl <;> exact absurd stems (by decide)
  rw [UnitCode.code, labelsOf_append, labelsOf_append, noExports, List.append_nil,
    (order.append_left _).nodup_iff, List.nodup_append, List.nodup_append]
  refine ⟨stringsDistinct, ⟨distinct, branches.distinct, ?_⟩, ?_⟩
  · rintro name own _ branch rfl
    exact free name own (Labels.generated_of_drawn (branches.drawn name branch))
  · rintro name string _ other rfl
    rcases List.mem_append.mp other with own | branch
    · exact free name own (generated name string)
    · exact notBranch name string branch

/-- Labels of an accepted unit are defined once each; jumps stay in their function; addresses name
string data; every function ends in a return. From its label, control stays in the function's code,
whatever is tested, until it returns or enters a call. -/
theorem label_integrity {symbols : SymbolTable} {config : Config} {p : Program} {u : UnitCode}
    (accepted : p.code symbols config = .ok u) (distinct : (p.labels symbols).Nodup)
    (free : ∀ name ∈ p.labels symbols, ¬ Generated name) :
    (labelsOf u.code).Nodup ∧
    (targetsOf u.data = [] ∧ targetsOf u.exports = [] ∧ ∀ code ∈ u.functions,
      ∀ name ∈ targetsOf code, name ∈ labelsOf code ∧ (labelsOf u.code).count name = 1) ∧
    (∀ name ∈ addressesOf u.code, name ∈ labelsOf u.data) ∧
    (∀ code ∈ u.functions, [.leave, .ret] <:+ code) ∧
    (∀ k code, u.functions[k]? = some code → ∃ label ∈ p.labels symbols,
      u.code[u.start k]? = some (.label label) ∧
      ∀ there, Relation.ReflTransGen (Follows u.code) (u.start k) there →
        u.start k ≤ there ∧ there < u.start k + code.length) := by
  have nodup := labels_distinct accepted distinct free
  obtain ⟨strings, data, functions, exports⟩ := Program.code_ok accepted
  have each := functionsCode_each functions
  have quietData : targetsOf u.data = [] ∧ addressesOf u.data = [] := by
    have quiet := StringPool.quiet_ofLiterals symbols.literals config.pauseText
    rwa [data] at quiet
  have quietExports : targetsOf u.exports = [] ∧ addressesOf u.exports = [] := by
    rw [exports]
    exact ⟨List.filterMap_eq_nil_iff.mpr (by simp), List.flatMap_eq_nil_iff.mpr (by
      simp [Instr.addresses, Instr.operands])⟩
  have closed : ∀ code ∈ u.functions, ∀ name ∈ targetsOf code, name ∈ labelsOf code := by
    intro code member
    obtain ⟨_, _, _, _, function⟩ := each code member
    exact function.closed
  have ends : ∀ code ∈ u.functions, epilogue <:+ code := by
    intro code member
    obtain ⟨_, _, _, _, function⟩ := each code member
    exact function.ends
  refine ⟨nodup, ⟨quietData.1, quietExports.1, ?_⟩, ?_, ends, ?_⟩
  · intro code member name target
    have defined := closed code member name target
    refine ⟨defined, List.count_eq_one_of_mem nodup ?_⟩
    rw [UnitCode.code, labelsOf_append, List.mem_append]
    exact Or.inr (mem_labelsOf.mpr
      (List.mem_flatten.mpr ⟨code, member, mem_labelsOf.mp defined⟩))
  · intro name member
    rw [UnitCode.code, addressesOf_append, addressesOf_append, quietData.2, quietExports.2]
      at member
    obtain ⟨i, inside, taken⟩ := List.mem_flatMap.mp member
    obtain ⟨code, known, here⟩ := List.mem_flatten.mp inside
    obtain ⟨_, _, _, _, function⟩ := each code known
    have pooled := function.pooled name (List.mem_flatMap.mpr ⟨i, here, taken⟩)
    have found : (StringPool.ofLiterals symbols.literals config.pauseText).2.Pooled name → _ :=
      StringPool.pooled_ofLiterals _ _
    rw [data] at found
    exact found pooled
  · intro k code found
    have member := List.mem_of_getElem? found
    obtain ⟨label, known, _, _, function⟩ := each code member
    obtain ⟨before, after, start, split⟩ := UnitCode.code_split found
    obtain ⟨rest, opens⟩ := function.first
    have nonempty : 0 < code.length := by simp [opens]
    refine ⟨label, known, ?_, ?_⟩
    · rw [split, getElem?_middle (by omega) (by omega), start, Nat.sub_self, opens]
      rfl
    · intro there path
      rw [← start]
      induction path with
      | refl => omega
      | tail _ step ih =>
        rw [split] at step nodup
        exact follows_stays nodup (closed code member) (ends code member) ih step

theorem not_generated {name : String}
    (other : ∀ stem ∈ generatedStems, ¬ stem.toList <+: name.toList) : ¬ Generated name := by
  rintro ⟨stem, known, n, rfl⟩
  exact other stem known ⟨(toString n).toList, by simp [numbered]⟩

def branchingSymbols : SymbolTable where
  functions := [⟨"main", "_main", []⟩, ⟨"spin", "_spin", []⟩]
  literals := [⟨⟨7⟩, "on"⟩]

/-- Constructs of each kind, nested and side by side, over two functions. -/
def branching : Program where
  body := [
    .function ⟨⟨0⟩, [], ⟨⟨0⟩, [
      .whileLoop (.lit .bool ⟨0⟩ (.bool true)) ⟨⟨1⟩, [
        .ifThen (.lit .int ⟨1⟩ (.int 1)) ⟨⟨2⟩, [.eval (.lit .address ⟨7⟩ (.string "on"))]⟩]⟩,
      .ifThen (.lit .int ⟨2⟩ (.int 2)) ⟨⟨3⟩, []⟩, .ret none]⟩⟩,
    .function ⟨⟨1⟩, [], ⟨⟨4⟩, [
      .forLoop (.lit .int ⟨3⟩ (.int 3)) (.lit .int ⟨4⟩ (.int 4)) none ⟨⟨5⟩, []⟩,
      .whileLoop (.lit .bool ⟨5⟩ (.bool false)) ⟨⟨6⟩, []⟩]⟩⟩]

theorem label_integrity_branching :
    ∃ u, branching.code branchingSymbols {} = .ok u ∧
      labelsOf u.code = ["SL0", "SL1", "_main", "L_while0", "L_endif0", "L_endwhile0", "L_endif1",
        "_spin", "L_for0", "L_endfor0", "L_while1", "L_endwhile1"] ∧
      (labelsOf u.code).Nodup ∧ (∀ code ∈ u.functions, [.leave, .ret] <:+ code) := by
  refine ⟨_, rfl, rfl, ?_⟩
  have whole := label_integrity (show branching.code branchingSymbols {} = .ok _ from rfl)
    (by decide) (fun name member => not_generated (by revert name; decide))
  exact ⟨whole.1, whole.2.2.2.1⟩

end Ia32Backend
