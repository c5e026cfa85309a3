import Ia32Backend.Proofs.Meaning.Encoding
import Ia32Backend.Proofs.TruthValues

/-!
Equality of truths on the machine. It compares words, and since a truth has two words for true, two
formulas that are both true are equal only if both are all ones or both are one.
-/
namespace Ia32Backend

/-- Whether two formulas come to the same word, the right one behind the left. -/
def Expr.SameWord (t : Terrain) (left right : Expr) (s : Store Unit) : Prop :=
  left.holds t s = right.holds t (left.after t s) ∧
    left.fills t s = right.fills t (left.after t s)

/-- Where no division faults, the code of an equality of formulas leaves a number other than zero
just where both are false, or both are true in the same form; that of an inequality just where it is
otherwise. -/
theorem equality_compares_encodings {m : Image} {env : Env} {ty : ValueType} {op : BinaryOp}
    {left right : Expr} {v : ValueCode} {names : List VarId} {i : Nat} {c : Cpu}
    {log : List RuntimeCall} {s : Store Unit} (first : left.IsFormula) (second : right.IsFormula)
    (lowered : (Expr.binary ty op left right).code env = .ok v)
    (inside : (Expr.binary ty op left right).names ⊆ names)
    (stage : Stage m env names s.vars ⟨.inside i, c, log⟩) (here : m.Has i v.code)
    (faultless : (Expr.binary ty op left right).evaluate (env.terrain m.data (c.reg .bp))
      noCallees s ≠ .error .divide) :
    let t := env.terrain m.data (c.reg .bp)
    Stage.Reaches m env names ⟨.inside i, c, log⟩ (i + v.code.length)
      ((Expr.binary ty op left right).after t s).vars fun c' =>
        (op = .equal → ((c'.low v.width .ax).signExtend 32 ≠ 0 ↔ left.SameWord t right s)) ∧
        (op = .notEqual →
          ((c'.low v.width .ax).signExtend 32 ≠ 0 ↔ ¬ left.SameWord t right s)) := by
  intro t
  have free : (Expr.binary ty op left right).callFree = true :=
    Bool.and_eq_true_iff.mpr ⟨Expr.callFree_of_formula first, Expr.callFree_of_formula second⟩
  obtain ⟨x, after, done⟩ := Expr.evaluate_settles free lowered faultless
  obtain ⟨a, mid, b, evaluated, evaluatedRight, result⟩ :=
    Expr.both_word (Expr.bool_of_formula first) (Expr.bool_of_formula second) done
  obtain ⟨wordA, fullA⟩ := Expr.encoded_of_formula first evaluated
  obtain ⟨wordB, fullB⟩ := Expr.encoded_of_formula second evaluatedRight
  have same : a.at .long = b.at .long ↔ left.SameWord t right s := by
    rw [wordA, wordB, Expr.encoded_inj fullA fullB, Expr.SameWord, Expr.after_eq evaluated]
  obtain ⟨n, c', steps, stage', sp, bp, gives⟩ := stage.reaches_value inside lowered here done
  subst gives
  rw [Expr.after_eq done]
  refine ⟨n, c', steps, stage', sp, bp, ?_, ?_⟩
  · rintro rfl
    have word : (c'.low v.width .ax).signExtend 32 = truth 32 (a.at .long == b.at .long) :=
      (Option.some.inj result).symm
    rw [word, (truth_mem _).2, beq_iff_eq, same]
  · rintro rfl
    have word : (c'.low v.width .ax).signExtend 32 = truth 32 (a.at .long != b.at .long) :=
      (Option.some.inj result).symm
    rw [word, (truth_mem _).2, bne_iff_ne, ne_eq, same]

/-- `1 < 2` -/
def oneBelowTwo : Expr :=
  .binary .bool .lessThan (.lit .int ⟨1⟩ (.int 1)) (.lit .int ⟨2⟩ (.int 2))

theorem oneBelowTwo_formula : oneBelowTwo.IsFormula :=
  .compare rfl (.inl rfl) (.inl rfl) rfl rfl

/-- `(true | 1 < 2) != !false` -/
def twoForms : Expr :=
  .binary .bool .notEqual (.binary .bool .or (.lit .bool ⟨0⟩ (.bool true)) oneBelowTwo)
    (.unary .bool .not (.lit .bool ⟨3⟩ (.bool false)))

def twoFormsCode : ValueCode := (twoForms.code deciding).toOption.getD ⟨[], .long⟩

def twoFormsImage : Image := Image.ofCode twoFormsCode.code (by decide)

theorem twoForms_lasts : twoFormsImage.StackLasts ⟨.inside 0, pointingCpu, []⟩ :=
  Image.stackLasts_of_advance 23 rfl

theorem equality_compares_encodings_two_forms :
    ∃ n c', twoFormsImage.Steps n ⟨.inside 0, pointingCpu, []⟩ ⟨.inside 22, c', []⟩ ∧
      c'.reg .ax ≠ 0 := by
  have here : twoFormsImage.Has 0 twoFormsCode.code :=
    @Image.has_middle _ _ [] [] (by simp [twoFormsImage, Image.ofCode])
  have stage : Stage twoFormsImage deciding [] undecided.vars ⟨.inside 0, pointingCpu, []⟩ :=
    ⟨⟨by simp, by simp, by simp⟩, by simp [Terrain.Held], twoForms_lasts⟩
  have lowered : twoForms.code deciding = .ok twoFormsCode := rfl
  obtain ⟨n, c', steps, _, _, _, _, unequal⟩ := equality_compares_encodings
    (.both (.inr rfl) (.literal _ _) oneBelowTwo_formula) (.not (.literal _ _)) lowered
    (List.nil_subset _) stage here (by rintro ⟨⟩)
  have extended : (c'.low twoFormsCode.width .ax).signExtend 32 = c'.reg .ax :=
    Cpu.signExtend_low_long c' .ax
  refine ⟨n, c', steps, extended ▸ (unequal rfl).mpr ?_⟩
  rintro ⟨_, full⟩
  exact absurd full (by decide)

/-- `true == (1 < 2)` -/
def equalTruths : Expr := .binary .bool .equal (.lit .bool ⟨0⟩ (.bool true)) oneBelowTwo

def equalTruthsCode : ValueCode := (equalTruths.code deciding).toOption.getD ⟨[], .long⟩

def equalTruthsImage : Image := Image.ofCode equalTruthsCode.code (by decide)

/-- Both operands are true, and zero is left. -/
theorem equal_truths_leave_zero :
    (Expr.lit .bool ⟨0⟩ (.bool true)).IsFormula ∧ oneBelowTwo.IsFormula ∧
      (Expr.lit .bool ⟨0⟩ (.bool true)).holds
        (deciding.terrain equalTruthsImage.data 4112) undecided = true ∧
      oneBelowTwo.holds (deciding.terrain equalTruthsImage.data 4112) undecided = true ∧
      equalTruths.code deciding = .ok equalTruthsCode ∧ equalTruthsCode.width = .long ∧
      ∃ n c', equalTruthsImage.Steps n ⟨.inside 0, pointingCpu, []⟩ ⟨.inside 15, c', []⟩ ∧
        c'.reg .ax = 0 := by
  obtain ⟨c', ran, zero⟩ : ∃ c', equalTruthsImage.advance 15 ⟨.inside 0, pointingCpu, []⟩ =
      .ok ⟨.inside 15, c', []⟩ ∧ c'.reg .ax = 0 := ⟨_, rfl, rfl⟩
  exact ⟨.literal _ _, oneBelowTwo_formula, rfl, rfl, rfl, rfl, 15, c', Image.steps_advance ran,
    zero⟩

end Ia32Backend
