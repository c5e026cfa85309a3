import Ia32Backend.Proofs.LabelIntegrity
import Ia32Backend.Proofs.Machine.Alone
import Ia32Backend.Proofs.Machine.Arithmetic

/-!
A whole unit on the machine. A call of a label that the unit defines pushes a return address and
goes there; any other call is one of the runtime, which comes back as the calling convention says.
The runtime may depend on everything it was called with so far, and the calls are kept in a log.
-/
namespace Ia32Backend

/-- A call of the runtime. -/
structure RuntimeCall where
  routine : String
  /-- The long on top of the stack at the call. -/
  argument : Word
  deriving DecidableEq, Repr

def Instr.isCall : Instr → Bool
  | .call _ => true
  | _ => false

/-- A unit in memory, next to its runtime. -/
structure Image where
  code : List Instr
  /-- Addresses of labels. -/
  data : String → Word
  /-- Return address of the call at a position. -/
  back : Nat → Word
  apart : ∀ i j, code[i]?.any Instr.isCall → code[j]?.any Instr.isCall → back i = back j → i = j
  runtime : List RuntimeCall → String → Cpu → Cpu
  returns : ∀ log name (c : Cpu), c.Returned (runtime log name c)

inductive Position where
  | inside (index : Nat)
  | outside (address : Word)
  deriving DecidableEq, Repr

structure State where
  pos : Position
  cpu : Cpu
  /-- Oldest first. -/
  log : List RuntimeCall

namespace Image

/-- Where a label stands. -/
def find (m : Image) (name : String) : Option Nat := m.code.idxOf? (.label name)

/-- Where a return address leads. -/
def locate (m : Image) (a : Word) : Position :=
  match (List.range m.code.length).find? fun i => m.code[i]?.any Instr.isCall && m.back i == a with
  | some i => .inside (i + 1)
  | none => .outside a

def goto (m : Image) (s : State) (name : String) : Except Trap State :=
  match m.find name with
  | some j => .ok { s with pos := .inside j }
  | none => .error .stuck

def call (m : Image) (i : Nat) (s : State) (name : String) : Except Trap State :=
  match m.find name with
  | some j => do pure { s with pos := .inside j, cpu := ← s.cpu.push (m.back i) }
  | none =>
    if 4 ≤ (s.cpu.reg .sp).toNat then
      .ok ⟨.inside (i + 1), m.runtime s.log name s.cpu, s.log ++ [⟨name, s.cpu.top⟩]⟩
    else .error .stack

/-- Performs the instruction at a position. -/
def perform (m : Image) (i : Nat) (s : State) : Instr → Except Trap State
  | .call name => m.call i s name
  | .jmp name => m.goto s name
  | .jump cond name =>
    match s.cpu.flags with
    | some f => if cond.holds f then m.goto s name else .ok { s with pos := .inside (i + 1) }
    | none => .error .stuck
  | .ret => .ok ⟨m.locate s.cpu.top, s.cpu.drop, s.log⟩
  | instr => do pure { s with pos := .inside (i + 1), cpu := ← s.cpu.exec m.data instr }

def step (m : Image) (s : State) : Except Trap State :=
  match s.pos with
  | .outside _ => .error .stuck
  | .inside i =>
    match m.code[i]? with
    | some instr => m.perform i s instr
    | none => .error .stuck

inductive Steps (m : Image) : Nat → State → State → Prop where
  | refl (s : State) : Steps m 0 s s
  | head {n : Nat} {s mid t : State} (first : m.step s = .ok mid) (rest : Steps m n mid t) :
      Steps m (n + 1) s t

/-- A run into a trap, with the calls that were made on the way. -/
def Traps (m : Image) (s : State) (trap : Trap) (log : List RuntimeCall) : Prop :=
  ∃ n t, m.Steps n s t ∧ m.step t = .error trap ∧ t.log = log

/-- A piece of code that stands at a position. -/
def Has (m : Image) (i : Nat) (code : List Instr) : Prop :=
  ∀ k instr, code[k]? = some instr → m.code[i + k]? = some instr

section
variable {m : Image} {s t r : State} {i k n : Nat} {c c' : Cpu} {log : List RuntimeCall}
  {a b code : List Instr} {instr : Instr} {name : String} {trap : Trap}

theorem steps_trans (first : m.Steps n s t) (second : m.Steps k t r) : m.Steps (k + n) s r := by
  induction first with
  | refl => exact second
  | head step _ ih => exact .head step (ih second)

theorem traps_steps (first : m.Steps n s t) (ends : m.Traps t trap log) : m.Traps s trap log := by
  obtain ⟨k, last, rest, failed, same⟩ := ends
  exact ⟨_, last, steps_trans first rest, failed, same⟩

theorem has_append : m.Has i (a ++ b) ↔ m.Has i a ∧ m.Has (i + a.length) b := by
  constructor
  · intro both
    refine ⟨fun k instr found => both k instr ?_, fun k instr found => ?_⟩
    · rwa [List.getElem?_append_left (List.getElem?_eq_some_iff.mp found).1]
    · rw [Nat.add_assoc]
      exact both _ instr (by rwa [List.getElem?_append_right (by omega), Nat.add_sub_cancel_left])
  · rintro ⟨left, right⟩ k instr found
    by_cases inside : k < a.length
    · exact left k instr (by rwa [List.getElem?_append_left inside] at found)
    · rw [List.getElem?_append_right (by omega)] at found
      have there := right _ instr found
      rwa [show i + a.length + (k - a.length) = i + k by omega] at there

theorem has_cons : m.Has i (instr :: code) ↔ m.code[i]? = some instr ∧ m.Has (i + 1) code := by
  rw [← List.singleton_append, has_append]
  refine and_congr_left fun _ => ⟨fun one => one 0 instr rfl, fun found k other single => ?_⟩
  obtain ⟨bound, same⟩ := List.getElem?_eq_some_iff.mp single
  obtain rfl : k = 0 := by simpa using bound
  cases same
  exact found

theorem has_middle {before after : List Instr} (split : m.code = before ++ code ++ after) :
    m.Has before.length code := by
  intro k instr found
  have inside := (List.getElem?_eq_some_iff.mp found).1
  rw [split, getElem?_middle (Nat.le_add_right _ _) (by omega), Nat.add_sub_cancel_left, found]

/-! Steps of each kind. -/

theorem step_inside (found : m.code[i]? = some instr) :
    m.step ⟨.inside i, c, log⟩ = m.perform i ⟨.inside i, c, log⟩ instr := by
  simp only [step, found]

theorem perform_ok (done : c.exec m.data instr = .ok c') :
    m.perform i ⟨.inside i, c, log⟩ instr = .ok ⟨.inside (i + 1), c', log⟩ := by
  cases instr <;> first | (simp only [perform, done]; rfl) | cases done

theorem perform_error (failed : c.exec m.data instr = .error trap) (real : trap ≠ .stuck) :
    m.perform i ⟨.inside i, c, log⟩ instr = .error trap := by
  cases instr <;> first
    | (simp only [perform, failed]; rfl)
    | (cases failed; exact absurd rfl real)

theorem steps_run (here : m.Has i code) (ran : c.run m.data code = .ok c') :
    m.Steps code.length ⟨.inside i, c, log⟩ ⟨.inside (i + code.length), c', log⟩ := by
  induction code generalizing i c with
  | nil =>
    cases pure_eq_ok.mp ran
    exact .refl _
  | cons instr rest ih =>
    obtain ⟨found, later⟩ := has_cons.mp here
    obtain ⟨mid, first, ahead⟩ := Cpu.run_cons_ok.mp ran
    have tail := ih later ahead
    rw [show i + 1 + rest.length = i + (instr :: rest).length by
      rw [List.length_cons]; omega] at tail
    exact .head ((step_inside found).trans (perform_ok first)) tail

theorem traps_run (here : m.Has i code) (failed : c.run m.data code = .error trap)
    (real : trap ≠ .stuck) : m.Traps ⟨.inside i, c, log⟩ trap log := by
  induction code generalizing i c with
  | nil => cases failed
  | cons instr rest ih =>
    obtain ⟨found, later⟩ := has_cons.mp here
    rw [Cpu.run] at failed
    cases first : c.exec m.data instr with
    | error cause =>
      rw [first] at failed
      cases failed
      exact ⟨0, _, .refl _, (step_inside found).trans (perform_error first real), rfl⟩
    | ok mid =>
      rw [first] at failed
      exact traps_steps (.head ((step_inside found).trans (perform_ok first)) (.refl _))
        (ih later failed)

theorem steps_one (found : m.code[i]? = some instr)
    (done : m.perform i ⟨.inside i, c, log⟩ instr = .ok t) : m.Steps 1 ⟨.inside i, c, log⟩ t :=
  .head ((step_inside found).trans done) (.refl t)

theorem steps_goto {j : Nat} (found : m.code[i]? = some (.jmp name))
    (there : m.find name = some j) :
    m.Steps 1 ⟨.inside i, c, log⟩ ⟨.inside j, c, log⟩ :=
  steps_one found (by rw [perform, goto, there])

theorem steps_jump {j : Nat} {cond : Cond} {f : Flags} (found : m.code[i]? = some (.jump cond name))
    (there : m.find name = some j) (flags : c.flags = some f) :
    m.Steps 1 ⟨.inside i, c, log⟩ ⟨.inside (if cond.holds f then j else i + 1), c, log⟩ := by
  refine steps_one found ?_
  simp only [perform, goto, there, flags]
  split <;> rfl

/-- The frame is taken down and control goes back to the caller. -/
theorem steps_epilogue (log : List RuntimeCall) (here : m.Has i epilogue) :
    ∃ t, m.Steps 2 ⟨.inside i, c, log⟩ t ∧
      t.pos = m.locate (c.mem.read (c.reg .bp + 4) .long) ∧ t.cpu.reg .sp = c.reg .bp + 8 ∧
      t.cpu.reg .bp = c.mem.read (c.reg .bp) .long ∧
      (∀ r, r ≠ .sp → r ≠ .bp → t.cpu.reg r = c.reg r) ∧ t.cpu.mem = c.mem ∧ t.log = log := by
  obtain ⟨hereLeave, here⟩ := has_cons.mp here
  obtain ⟨hereRet, _⟩ := has_cons.mp here
  have eight : c.reg .bp + 4 + 4 = c.reg .bp + 8 := BitVec.add_assoc _ _ _
  refine ⟨_, .head (step_inside hereLeave) (.head (step_inside hereRet) (.refl _)),
    ?_, ?_, ?_, ?_, rfl, rfl⟩
  · simp [Cpu.top, Cpu.drop]
  · simpa [Cpu.drop] using eight
  · simp [Cpu.top, Cpu.drop]
  · intro r sp bp
    simp [Cpu.drop, sp, bp]

theorem find_eq (distinct : (labelsOf m.code).Nodup) (found : m.code[i]? = some (.label name)) :
    m.find name = some i := by
  obtain ⟨bound, entry⟩ := List.getElem?_eq_some_iff.mp found
  have split : m.code = m.code.take i ++ [.label name] ++ m.code.drop (i + 1) := by
    rw [← entry, List.append_assoc, List.singleton_append, ← List.drop_eq_getElem_cons bound,
      List.take_append_drop]
  refine List.idxOf?_eq_some_iff.mpr ⟨bound, entry, ?_⟩
  intro j below same
  have defined : m.code[j]? = some (.label name) := by
    rw [List.getElem?_eq_getElem (Nat.lt_trans below bound), same]
  rw [split] at distinct defined
  have low := (label_in_middle distinct (List.mem_singleton_self name) defined).1
  rw [List.length_take] at low
  omega

theorem find_none (external : name ∉ labelsOf m.code) : m.find name = none := by
  rw [find, List.idxOf?_eq_none_iff]
  exact fun member => external (mem_labelsOf.mpr member)

theorem locate_back (found : m.code[i]? = some (.call name)) :
    m.locate (m.back i) = .inside (i + 1) := by
  have called : m.code[i]?.any Instr.isCall = true := by rw [found]; rfl
  unfold locate
  cases search : (List.range m.code.length).find? fun j =>
      m.code[j]?.any Instr.isCall && m.back j == m.back i with
  | some j =>
    have accepted := List.find?_some search
    simp only [Bool.and_eq_true, beq_iff_eq] at accepted
    rw [m.apart j i accepted.1 called accepted.2]
  | none =>
    have refused := List.find?_eq_none.mp search i
      (List.mem_range.mpr (List.getElem?_eq_some_iff.mp found).1)
    simp [called] at refused

end

end Image

end Ia32Backend
