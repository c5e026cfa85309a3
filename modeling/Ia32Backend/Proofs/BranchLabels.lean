import Ia32Backend.Proofs.Inline
import Ia32Backend.Proofs.NumberedNames

/-!
Labels that code defines, jumps to and takes addresses of. A piece of code draws its branch labels
from an interval of each counter, defines each of them once and jumps to no others. Intervals of
consecutive pieces meet end to end, so no number is drawn twice in a unit.
-/
namespace Ia32Backend

/-- The label that an instruction defines. -/
@[simp]
def Instr.defines : Instr → Option String
  | .label name => some name
  | _ => none

/-- The label that an instruction may jump to. -/
@[simp]
def Instr.target : Instr → Option String
  | .jmp name => some name
  | .jump _ name => some name
  | _ => none

def Instr.operands : Instr → List Operand
  | .mov _ src dst => [src, dst]
  | .movSigned src dst => [src, dst]
  | .movZero src dst => [src, dst]
  | .lea src dst => [src, dst]
  | .arith _ _ src dst => [src, dst]
  | .mulByte src => [src]
  | .idiv _ src => [src]
  | .neg _ dst => [dst]
  | .cmp _ src dst => [src, dst]
  | .set _ dst => [dst]
  | .xchg _ a b => [a, b]
  | .push src => [src]
  | .pop dst => [dst]
  | _ => []

def Operand.label : Operand → Option String
  | .addr label => some label
  | _ => none

/-- Labels whose addresses an instruction takes. -/
def Instr.addresses (i : Instr) : List String := i.operands.filterMap Operand.label

def labelsOf (code : List Instr) : List String := code.filterMap Instr.defines

def targetsOf (code : List Instr) : List String := code.filterMap Instr.target

def addressesOf (code : List Instr) : List String := code.flatMap Instr.addresses

@[simp] theorem labelsOf_nil : labelsOf [] = [] := rfl

@[simp] theorem targetsOf_nil : targetsOf [] = [] := rfl

@[simp] theorem labelsOf_cons (i : Instr) (rest : List Instr) :
    labelsOf (i :: rest) = i.defines.toList ++ labelsOf rest := by
  cases defines : i.defines with
  | none => exact List.filterMap_cons_none defines
  | some name => exact List.filterMap_cons_some defines

@[simp] theorem targetsOf_cons (i : Instr) (rest : List Instr) :
    targetsOf (i :: rest) = i.target.toList ++ targetsOf rest := by
  cases target : i.target with
  | none => exact List.filterMap_cons_none target
  | some name => exact List.filterMap_cons_some target

@[simp] theorem labelsOf_append (a b : List Instr) :
    labelsOf (a ++ b) = labelsOf a ++ labelsOf b := List.filterMap_append

@[simp] theorem targetsOf_append (a b : List Instr) :
    targetsOf (a ++ b) = targetsOf a ++ targetsOf b := List.filterMap_append

@[simp] theorem addressesOf_append (a b : List Instr) :
    addressesOf (a ++ b) = addressesOf a ++ addressesOf b := List.flatMap_append

theorem mem_labelsOf {code : List Instr} {name : String} :
    name ∈ labelsOf code ↔ .label name ∈ code := by
  constructor
  · intro member
    obtain ⟨i, inside, defines⟩ := List.mem_filterMap.mp member
    cases i <;> simp_all [Instr.defines]
  · intro member
    exact List.mem_filterMap.mpr ⟨_, member, rfl⟩

/-- Code without labels and jumps. -/
structure Straight (code : List Instr) : Prop where
  labels : labelsOf code = []
  targets : targetsOf code = []

/-- Labels of the strings that a pool knows. -/
def StringPool.Pooled (pool : StringPool) (name : String) : Prop :=
  (∃ node, pool.labelAt node = .ok name) ∨ pool.pauseLabel = .ok name

theorem Instr.Inline.straight {env : Env} {names : List VarId} {i : Instr}
    (inline : i.Inline env names) : i.defines = none ∧ i.target = none := by
  cases inline <;> exact ⟨rfl, rfl⟩

theorem Env.place_label {env : Env} {v : VarId} {p : Place} (ok : env.place v = .ok p) :
    p.operand.label = none := by
  obtain ⟨_, _, _, _, rfl⟩ := Env.place_ok ok
  rfl

@[simp] theorem Operand.label_reg (r : Reg) : (Operand.reg r).label = none := rfl

@[simp] theorem Operand.label_mem (base : Reg) (disp : Int32) :
    (Operand.mem base disp).label = none := rfl

theorem Instr.Inline.pooled {env : Env} {names : List VarId} {i : Instr}
    (inline : i.Inline env names) : ∀ name ∈ i.addresses, env.strings.Pooled name := by
  cases inline with
  | load known place => simp [addresses, operands, Env.place_label place]
  | store known place => simp [addresses, operands, Env.place_label place]
  | address known place => simp [addresses, operands, Env.place_label place]
  | @text node label pooled =>
    intro name member
    rw [List.mem_singleton.mp (show name ∈ [label] from member)]
    exact Or.inl ⟨node, pooled⟩
  | _ => exact fun _ member => (List.not_mem_nil member).elim

theorem straight_of_inlined {env : Env} {names : List VarId} {code : List Instr}
    (inlined : Inlined env names code) : Straight code where
  labels := List.filterMap_eq_nil_iff.mpr fun i member => (inlined i member).straight.1
  targets := List.filterMap_eq_nil_iff.mpr fun i member => (inlined i member).straight.2

/-! Intervals of drawn numbers. -/

namespace Labels

/-- Stems of branch labels, each with the counter that numbers it. -/
def stems : List (String × (Labels → Nat)) :=
  [("L_endif", ifs), ("L_for", fors), ("L_endfor", fors), ("L_while", whiles),
    ("L_endwhile", whiles)]

def Le (l last : Labels) : Prop := l.ifs ≤ last.ifs ∧ l.fors ≤ last.fors ∧ l.whiles ≤ last.whiles

theorem le_refl (l : Labels) : l.Le l := ⟨Nat.le_refl _, Nat.le_refl _, Nat.le_refl _⟩

theorem le_trans {l mid last : Labels} (first : l.Le mid) (second : mid.Le last) : l.Le last :=
  ⟨Nat.le_trans first.1 second.1, Nat.le_trans first.2.1 second.2.1,
    Nat.le_trans first.2.2 second.2.2⟩

theorem count_le {l last : Labels} (le : l.Le last) :
    ∀ stem ∈ stems, stem.2 l ≤ stem.2 last := by
  obtain ⟨ifs, fors, whiles⟩ := le
  simp [stems, ifs, fors, whiles]

/-- A name whose number was drawn between two states of the counters. -/
def Drawn (l last : Labels) (name : String) : Prop :=
  ∃ stem ∈ stems, ∃ n, stem.2 l ≤ n ∧ n < stem.2 last ∧ name = numbered stem.1 n

theorem drawn_mono {l l' last last' : Labels} {name : String} (below : l'.Le l)
    (above : last.Le last') (drawn : Drawn l last name) : Drawn l' last' name := by
  obtain ⟨stem, known, n, low, high, rfl⟩ := drawn
  exact ⟨stem, known, n, Nat.le_trans (count_le below stem known) low,
    Nat.lt_of_lt_of_le high (count_le above stem known), rfl⟩

theorem generated_of_mem_stems : ∀ stem ∈ stems, stem.1 ∈ generatedStems := by
  simp [stems, generatedStems]

theorem generated_of_drawn {l last : Labels} {name : String} (drawn : Drawn l last name) :
    Generated name := by
  obtain ⟨stem, known, n, _, _, rfl⟩ := drawn
  exact ⟨stem.1, generated_of_mem_stems stem known, n, rfl⟩

/-- A stem is numbered by one counter. -/
theorem stems_functional : ∀ s ∈ stems, ∀ t ∈ stems, s.1 = t.1 → s.2 = t.2 := by
  simp [stems]

theorem drawn_apart {l mid last : Labels} {name : String} (first : Drawn l mid name)
    (second : Drawn mid last name) : False := by
  obtain ⟨s, knownS, m, _, high, rfl⟩ := first
  obtain ⟨t, knownT, n, low, _, same⟩ := second
  obtain ⟨stem, number⟩ := numbered_injective
    (generatedStems_noDigits _ (generated_of_mem_stems s knownS))
    (generatedStems_noDigits _ (generated_of_mem_stems t knownT)) same
  rw [stems_functional s knownS t knownT stem] at high
  omega

end Labels

/-- Code between two states of the counters. -/
structure Branches (l last : Labels) (code : List Instr) : Prop where
  forward : l.Le last
  drawn : ∀ name ∈ labelsOf code, Labels.Drawn l last name
  distinct : (labelsOf code).Nodup
  closed : ∀ name ∈ targetsOf code, name ∈ labelsOf code

theorem branches_straight (l : Labels) {code : List Instr} (straight : Straight code) :
    Branches l l code where
  forward := l.le_refl
  drawn := by simp [straight.labels]
  distinct := by simp [straight.labels]
  closed := by simp [straight.targets]

theorem branches_append {l mid last : Labels} {a b : List Instr} (first : Branches l mid a)
    (second : Branches mid last b) : Branches l last (a ++ b) where
  forward := Labels.le_trans first.forward second.forward
  drawn := by
    intro name member
    rw [labelsOf_append, List.mem_append] at member
    rcases member with left | right
    · exact Labels.drawn_mono l.le_refl second.forward (first.drawn name left)
    · exact Labels.drawn_mono first.forward last.le_refl (second.drawn name right)
  distinct := by
    rw [labelsOf_append, List.nodup_append]
    refine ⟨first.distinct, second.distinct, ?_⟩
    rintro name left _ right rfl
    exact Labels.drawn_apart (first.drawn name left) (second.drawn name right)
  closed := by
    intro name member
    rw [targetsOf_append, List.mem_append] at member
    rw [labelsOf_append, List.mem_append]
    exact member.imp (first.closed name) (second.closed name)

/-- A construct's own labels, drawn before what stands inside it, around its code. -/
theorem branches_around {l next last : Labels} (own : List String) {inner code : List Instr}
    (inside : Branches next last inner) (forward : l.Le next)
    (drawn : ∀ name ∈ own, Labels.Drawn l next name) (distinct : own.Nodup)
    (labels : (labelsOf code).Perm (own ++ labelsOf inner))
    (targets : ∀ name ∈ targetsOf code, name ∈ own ∨ name ∈ targetsOf inner) :
    Branches l last code where
  forward := Labels.le_trans forward inside.forward
  drawn := by
    intro name member
    rcases List.mem_append.mp (labels.mem_iff.mp member) with mine | deeper
    · exact Labels.drawn_mono l.le_refl inside.forward (drawn name mine)
    · exact Labels.drawn_mono forward last.le_refl (inside.drawn name deeper)
  distinct := by
    rw [labels.nodup_iff, List.nodup_append]
    refine ⟨distinct, inside.distinct, ?_⟩
    rintro name mine _ deeper rfl
    exact Labels.drawn_apart (drawn name mine) (inside.drawn name deeper)
  closed := by
    intro name member
    refine labels.mem_iff.mpr (List.mem_append.mpr ?_)
    exact (targets name member).imp (fun mine => mine) (inside.closed name)

section
variable {l last : Labels} {test : ValueCode} {inner step : List Instr}

theorem branches_ifCode (tested : Straight test.code) (inside : Branches l.drawIf last inner) :
    Branches l last (ifCode l.endIf test inner) := by
  refine branches_around [l.endIf] inside ⟨Nat.le_succ _, Nat.le_refl _, Nat.le_refl _⟩
    ?_ (by simp) ?_ ?_
  · intro name member
    rw [List.mem_singleton] at member
    subst name
    exact ⟨_, .head _, l.ifs, Nat.le_refl _, Nat.lt_succ_self _, rfl⟩
  · simp only [ifCode, labelsOf_append, tested.labels]
    exact List.perm_append_comm
  · intro name member
    simpa [ifCode, tested.targets] using member

/-- The labels of a loop: its head and its end. -/
theorem branches_loopCode {next : Labels} {head done : String} (tested : Straight test.code)
    (stepped : Straight step) (inside : Branches next last inner) (forward : l.Le next)
    (drawnHead : Labels.Drawn l next head) (drawnDone : Labels.Drawn l next done)
    (different : head ≠ done) : Branches l last (loopCode head done test inner step) := by
  refine branches_around [head, done] inside forward ?_ (by simp [different]) ?_ ?_
  · intro name member
    simp only [List.mem_cons, List.not_mem_nil, or_false] at member
    rcases member with rfl | rfl
    · exact drawnHead
    · exact drawnDone
  · simp only [loopCode, leaveUnless, labelsOf_append, tested.labels, stepped.labels]
    exact List.Perm.cons _ (List.perm_append_comm.trans (by simp))
  · intro name member
    simp only [loopCode, leaveUnless, targetsOf_append, tested.targets, stepped.targets] at member
    simp only [targetsOf_cons, Instr.target, Option.toList, targetsOf_nil, List.nil_append,
      List.append_nil, List.mem_append, List.mem_singleton] at member
    simp only [List.mem_cons, List.not_mem_nil, or_false]
    rcases member with (isDone | deeper) | isHead
    · exact Or.inl (Or.inr isDone)
    · exact Or.inr deeper
    · exact Or.inl (Or.inl isHead)

end

theorem numbered_ne {s t : String} (knownS : s ∈ generatedStems) (knownT : t ∈ generatedStems)
    (different : s ≠ t) (n : Nat) : numbered s n ≠ numbered t n := fun same =>
  different (numbered_injective (generatedStems_noDigits s knownS)
    (generatedStems_noDigits t knownT) same).1

theorem branches_whileLoop {l last : Labels} {test : ValueCode} {inner : List Instr}
    (tested : Straight test.code) (inside : Branches l.drawWhile last inner) :
    Branches l last (loopCode l.whileHead l.whileEnd test inner []) :=
  branches_loopCode tested ⟨rfl, rfl⟩ inside ⟨Nat.le_refl _, Nat.le_refl _, Nat.le_succ _⟩
    ⟨("L_while", Labels.whiles), by simp [Labels.stems], l.whiles, Nat.le_refl _,
      Nat.lt_succ_self _, rfl⟩
    ⟨("L_endwhile", Labels.whiles), by simp [Labels.stems], l.whiles, Nat.le_refl _,
      Nat.lt_succ_self _, rfl⟩
    (numbered_ne (by decide) (by decide) (by decide) l.whiles)

theorem branches_forLoop {l last : Labels} {test : ValueCode} {inner step : List Instr}
    (tested : Straight test.code) (stepped : Straight step)
    (inside : Branches l.drawFor last inner) :
    Branches l last (loopCode l.forHead l.forEnd test inner step) :=
  branches_loopCode tested stepped inside ⟨Nat.le_refl _, Nat.le_succ _, Nat.le_refl _⟩
    ⟨("L_for", Labels.fors), by simp [Labels.stems], l.fors, Nat.le_refl _,
      Nat.lt_succ_self _, rfl⟩
    ⟨("L_endfor", Labels.fors), by simp [Labels.stems], l.fors, Nat.le_refl _,
      Nat.lt_succ_self _, rfl⟩
    (numbered_ne (by decide) (by decide) (by decide) l.fors)

end Ia32Backend
