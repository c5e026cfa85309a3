import Ia32Backend.Proofs.Meaning.Valuation
import Ia32Backend.Proofs.Simulation.Expr

/-!
Expressions computed in a frame of which no more is known than that each variable has four bytes of
its own between the stack pointer and the frame pointer. Code leaves the rest of the stack alone,
however deep it pushes.
-/
namespace Ia32Backend

/-- Widths and addresses as the code has them, for a frame pointer and the addresses of labels. -/
def Env.terrain (env : Env) (data : String → Word) (base : Word) : Terrain where
  width v :=
    match env.symbols.vars[v.index]? with
    | some s => s.ty.width
    | none => .long
  address v :=
    match env.symbols.vars[v.index]? with
    | some s => base + BitVec.ofInt 32 ((env.frames.offset? s.block v).getD 0)
    | none => base
  text node :=
    match env.strings.labelAt node with
    | .ok label => data label
    | .error _ => 0

namespace Terrain

/-- Slots of four bytes inside a range of addresses, no two of which meet. -/
structure Spread (t : Terrain) (names : List VarId) (floor ceiling : Nat) : Prop where
  low : ∀ v ∈ names, floor ≤ (t.address v).toNat
  high : ∀ v ∈ names, (t.address v).toNat + 4 ≤ ceiling
  apart : ∀ u ∈ names, ∀ v ∈ names, u ≠ v →
    (t.address u).toNat + 4 ≤ (t.address v).toNat ∨ (t.address v).toNat + 4 ≤ (t.address u).toNat

/-- Memory holds the words of the variables, as far as their widths go. -/
def Held (t : Terrain) (names : List VarId) (vars : VarId → Word) (mem : Memory) : Prop :=
  ∀ v ∈ names, mem.read (t.address v) (t.width v) = (vars v).setWidth (t.width v).bits

/-- Whether an address belongs to one of the variables. -/
def Owned (t : Terrain) (names : List VarId) (x : Word) : Prop :=
  ∃ v ∈ names, Memory.InCell (t.address v) (t.width v) x

end Terrain

namespace Cpu

/-- What a caller finds after a call. The bytes of the arguments are the callee's. -/
structure Resumed (bytes : Nat) (c c' : Cpu) : Prop where
  saved : ∀ r ∈ [Reg.sp, .bp, .bx, .si, .di], c'.reg r = c.reg r
  above : ∀ x : Word, (c.reg .sp).toNat + bytes ≤ x.toNat → c'.mem x = c.mem x

section
variable {touched : Word → Prop} {n : Nat} {c c' c'' : Cpu}

/-- A call gives back all but the arguments that were pushed for it. -/
theorem keeps_resumed (keeps : Keeps touched n c c') (resumed : c'.Resumed n c'') :
    Keeps touched n c c'' := by
  have depth := keeps.sp
  refine ⟨?_, ?_, ?_⟩
  · rw [resumed.saved .sp (by decide)]
    exact depth
  · exact fun r member =>
      (resumed.saved r (List.mem_cons_of_mem _ member)).trans (keeps.saved r member)
  · exact fun x high apart =>
      (resumed.above x (by omega)).trans (keeps.outside x high apart)

end

end Cpu

namespace Image

/-- The stack does not run out. -/
def StackLasts (m : Image) (s : State) : Prop := ∀ log, ¬ m.Traps s .stack log

theorem stackLasts_steps {m : Image} {s t : State} {n : Nat} (lasts : m.StackLasts s)
    (steps : m.Steps n s t) : m.StackLasts t :=
  fun log ends => lasts log (traps_steps steps ends)

/-- The state after so many steps. -/
def advance (m : Image) : Nat → State → Except Trap State
  | 0, s => pure s
  | n + 1, s => do advance m n (← m.step s)

theorem steps_advance {m : Image} {n : Nat} :
    ∀ {s t : State}, m.advance n s = .ok t → m.Steps n s t := by
  induction n with
  | zero =>
    intro s t ran
    cases pure_eq_ok.mp ran
    exact .refl s
  | succ n ih =>
    intro s t ran
    obtain ⟨mid, first, later⟩ := bind_eq_ok.mp ran
    exact .head first (ih later)

/-- A run that gets stuck otherwise has met no trap of the stack on its way. -/
theorem stackLasts_of_advance {m : Image} (n : Nat) :
    ∀ {s : State}, m.advance n s = .error .stuck → m.StackLasts s := by
  induction n with
  | zero =>
    intro s ends
    cases ends
  | succ n ih =>
    rintro s ends log ⟨k, u, steps, failed, same⟩
    rw [advance] at ends
    cases first : m.step s with
    | error trap =>
      rw [first] at ends
      cases ends
      cases steps with
      | refl => cases first.symm.trans failed
      | head other _ => cases first.symm.trans other
    | ok mid =>
      rw [first] at ends
      cases steps with
      | refl => cases first.symm.trans failed
      | head other rest =>
        cases first.symm.trans other
        exact ih ends log ⟨_, u, rest, failed, same⟩

/-- A routine of the runtime answers at once, since the stack lasts. -/
theorem steps_routine {m : Image} {i : Nat} {c : Cpu} {log : List RuntimeCall} {name : String}
    (found : m.code[i]? = some (.call name)) (external : m.find name = none)
    (lasts : m.StackLasts ⟨.inside i, c, log⟩) :
    m.Steps 1 ⟨.inside i, c, log⟩
      ⟨.inside (i + 1), m.runtime log name c, log ++ [⟨name, c.top⟩]⟩ := by
  by_cases room : 4 ≤ (c.reg .sp).toNat
  · refine steps_one found ?_
    simp only [perform, call, external, if_pos room]
  · refine (lasts log ⟨0, _, .refl _, (step_inside found).trans ?_, rfl⟩).elim
    simp only [perform, call, external, if_neg room]

/-- Calls in the code come back with what the callee results in, and to the variables as they were.
The callee may look at the variables and at what was called so far. -/
def Fulfils {Ω : Type} (m : Image) (env : Env) (base : Word) (names : List VarId)
    (shows : Ω → List RuntimeCall → Prop) (callees : Callees Ω) : Prop :=
  ∀ i c log s callee symbol args x rest, m.code[i]? = some (.call symbol.label) →
    env.symbols.functionAt callee = .ok symbol → c.Passes args →
    (c.reg .sp).toNat + 4 * args.length ≤ 2 ^ 32 → c.reg .bp = base →
    (env.terrain m.data base).Held names s.vars c.mem → shows s.rest log →
    m.StackLasts ⟨.inside i, c, log⟩ → callees callee args s = .ok (x, rest) →
    ∃ n c' log', m.Steps n ⟨.inside i, c, log⟩ ⟨.inside (i + 1), c', log'⟩ ∧
      c.Resumed (4 * args.length) c' ∧ c'.reg .ax = x ∧ shows rest log'

end Image

/-- Where an expression is computed: by which machine, against what, and at which frame pointer.
`names` are the variables it may use and `assigned` those it may assign. -/
structure Ground (Ω : Type) where
  image : Image
  shows : Ω → List RuntimeCall → Prop
  env : Env
  names : List VarId
  assigned : List VarId
  floor : Nat
  base : Word

namespace Ground

section
variable {Ω α β : Type}

def terrain (g : Ground Ω) : Terrain := g.env.terrain g.image.data g.base

structure Sound (g : Ground Ω) : Prop where
  spread : g.terrain.Spread g.names g.floor g.base.toNat
  assigned : g.assigned ⊆ g.names

/-- The processor holds the variables, with the stack pointer below them. -/
structure Holds (g : Ground Ω) (vars : VarId → Word) (c : Cpu) : Prop where
  base : c.reg .bp = g.base
  room : (c.reg .sp).toNat ≤ g.floor
  slots : g.terrain.Held g.names vars c.mem

/-- Computing at a place ends at another one, so many bytes deeper. -/
def Lands (g : Ground Ω) (start : State) (pos n : Nat) (after : Store Ω) (right : Cpu → Prop) :
    Prop :=
  ∃ k c log, g.image.Steps k start ⟨.inside pos, c, log⟩ ∧
    Cpu.Keeps (g.terrain.Owned g.assigned) n start.cpu c ∧ g.Holds after.vars c ∧
    g.shows after.rest log ∧ right c

/-- Code computes what evaluation comes to, wherever it stands, and ends behind itself. The other
register is spared where this is claimed. -/
def Computes (g : Ground Ω) (code : List Instr) (run : Eval Ω α) (spares : Bool)
    (right : α → Cpu → Prop) : Prop :=
  ∀ i c log s x after, g.image.Has i code → g.Holds s.vars c → g.shows s.rest log →
    g.image.StackLasts ⟨.inside i, c, log⟩ → run s = .ok (x, after) →
    g.Lands ⟨.inside i, c, log⟩ (i + code.length) 0 after
      fun c' => right x c' ∧ (spares = true → c'.reg .dx = c.reg .dx)

variable {g : Ground Ω} {c c' : Cpu} {vars : VarId → Word} {start : State} {pos there i n k : Nat}
  {s mid last : Store Ω} {right wider : Cpu → Prop} {log : List RuntimeCall} {code : List Instr}
  {w : Width}

theorem terrain_place {v : VarId} {p : Place} (ok : g.env.place v = .ok p) :
    ∃ disp, p.operand = .frame disp ∧ g.terrain.width v = p.width ∧
      g.terrain.address v = g.base + disp.toBitVec := by
  obtain ⟨s, offset, found, slot, rfl⟩ := Env.place_ok ok
  have entry := SymbolTable.variableAt_eq_ok.mp found
  refine ⟨_, rfl, ?_, ?_⟩
  · simp [terrain, Env.terrain, entry]
  · simp [terrain, Env.terrain, entry, slot, Int32.toBitVec_ofInt]

/-! What still holds when memory above the floor stays. -/

theorem cell_le (g : Ground Ω) (v : VarId) : (g.terrain.width v).bytes ≤ 4 := by
  cases g.terrain.width v <;> decide

theorem owned_high (sound : g.Sound) {x : Word} (owned : g.terrain.Owned g.assigned x) :
    g.floor ≤ x.toNat := by
  obtain ⟨v, member, inside⟩ := owned
  exact Nat.le_trans (sound.spread.low v (sound.assigned member)) inside.1

theorem holds_later (sound : g.Sound) (holds : g.Holds vars c) (base : c'.reg .bp = c.reg .bp)
    (room : (c'.reg .sp).toNat ≤ g.floor)
    (same : ∀ x : Word, g.floor ≤ x.toNat → c'.mem x = c.mem x) : g.Holds vars c' := by
  refine ⟨base.trans holds.base, room, fun v known => ?_⟩
  have low := sound.spread.low v known
  have high := sound.spread.high v known
  have bound := g.base.isLt
  have small := g.cell_le v
  rw [← holds.slots v known]
  exact Memory.read_congr (by omega) fun x inside => same x (Nat.le_trans low inside.1)

/-- A variable takes a new word; no other one is touched. -/
theorem holds_write (sound : g.Sound) (holds : g.Holds vars c) {v : VarId}
    (known : v ∈ g.assigned) (x : Word) :
    Cpu.Keeps (g.terrain.Owned g.assigned) 0 c (c.setMem (c.mem.write (g.terrain.address v)
        (g.terrain.width v) (x.setWidth (g.terrain.width v).bits))) ∧
      g.Holds (fun u => if u = v then x else vars u) (c.setMem (c.mem.write (g.terrain.address v)
        (g.terrain.width v) (x.setWidth (g.terrain.width v).bits))) := by
  have bound := g.base.isLt
  have high := sound.spread.high v (sound.assigned known)
  have small := g.cell_le v
  refine ⟨Cpu.keeps_write _ (by omega) fun y inside => ⟨v, known, inside⟩, holds.base, holds.room,
    fun u member => ?_⟩
  by_cases same : u = v
  · subst u
    rw [if_pos rfl]
    exact Memory.read_write_same _ _ _ _
  · rw [if_neg same, ← holds.slots u member]
    have highU := sound.spread.high u member
    have smallU := g.cell_le u
    have apart := sound.spread.apart u member v (sound.assigned known) same
    exact Memory.read_write_apart _ _ (by omega) (by omega) (by omega)

/-! Landing, one piece of code after the other. -/

theorem lands_trans (lasts : g.image.StackLasts start) (first : g.Lands start pos n mid right)
    (next : ∀ c log, Cpu.Keeps (g.terrain.Owned g.assigned) n start.cpu c → g.Holds mid.vars c →
      g.shows mid.rest log → right c → g.image.StackLasts ⟨.inside pos, c, log⟩ →
      g.Lands ⟨.inside pos, c, log⟩ there k last wider) :
    g.Lands start there (n + k) last wider := by
  obtain ⟨a, c₁, log₁, steps₁, keeps₁, holds₁, shown₁, right₁⟩ := first
  have lasts₁ := Image.stackLasts_steps lasts steps₁
  obtain ⟨b, c₂, log₂, steps₂, keeps₂, rest⟩ :=
    next c₁ log₁ keeps₁ holds₁ shown₁ right₁ lasts₁
  exact ⟨b + a, c₂, log₂, Image.steps_trans steps₁ steps₂, Cpu.keeps_trans keeps₁ keeps₂, rest⟩

theorem lands_weaken (first : g.Lands start pos n mid right) (same : pos = there)
    (weaker : ∀ c, right c → wider c) : g.Lands start there n mid wider := by
  subst same
  obtain ⟨a, c₁, log₁, steps, keeps, holds, shown, result⟩ := first
  exact ⟨a, c₁, log₁, steps, keeps, holds, shown, weaker c₁ result⟩

theorem lands_refl (holds : g.Holds s.vars c) (shown : g.shows s.rest log) (result : right c) :
    g.Lands ⟨.inside i, c, log⟩ i 0 s right :=
  ⟨0, c, log, .refl _, Cpu.keeps_refl _ c, holds, shown, result⟩

theorem lands_computing (sound : g.Sound) (here : g.image.Has i code)
    (holds : g.Holds s.vars c) (shown : g.shows s.rest log) (computing : Computing code)
    (ran : c.run g.image.data code = .ok c') (result : right c') :
    g.Lands ⟨.inside i, c, log⟩ (i + code.length) 0 s right := by
  obtain ⟨keeps, mem⟩ : Cpu.Keeps (g.terrain.Owned g.assigned) 0 c c' ∧ c'.mem = c.mem :=
    Cpu.keeps_computing computing ran
  have sp := keeps.sp
  have room := holds.room
  refine ⟨_, c', log, Image.steps_run here ran, keeps, ?_, shown, result⟩
  exact holds_later sound holds (keeps.saved .bp (by decide)) (by omega) fun x _ => by rw [mem]

/-- A push leaves its operand on top, since the stack lasts. -/
theorem lands_push (sound : g.Sound) {src : Operand} (here : g.image.Has i [.push src])
    (holds : g.Holds s.vars c) (shown : g.shows s.rest log)
    (lasts : g.image.StackLasts ⟨.inside i, c, log⟩) :
    g.Lands ⟨.inside i, c, log⟩ (i + 1) 4 s fun c' =>
      c'.top = c.value g.image.data .long src ∧ ∀ r, r ≠ .sp → c'.reg r = c.reg r := by
  cases pushed : c.push (c.value g.image.data .long src) with
  | error trap =>
    cases Cpu.push_stack pushed
    refine (lasts log (Image.traps_run here ?_ (by decide))).elim
    rw [Cpu.run, Cpu.exec, pushed]
    rfl
  | ok c' =>
    have keeps : Cpu.Keeps (g.terrain.Owned g.assigned) 4 c c' := Cpu.keeps_push pushed
    obtain ⟨sp, top, regs, above⟩ := Cpu.push_effect pushed
    have room := holds.room
    have ran : c.run g.image.data [.push src] = .ok c' := by
      rw [Cpu.run, Cpu.exec, pushed]
      rfl
    refine ⟨_, c', log, Image.steps_run here ran, keeps, ?_, shown, top, regs⟩
    exact holds_later sound holds (regs .bp (by decide)) (by omega) fun x high =>
      above x (Nat.le_trans room high)

/-- Code that goes back up over what was pushed, and leaves memory and the saved registers. -/
theorem lands_raise (sound : g.Sound) (first : g.Lands start pos (n + k) s right)
    (room : (start.cpu.reg .sp).toNat ≤ g.floor) (here : g.image.Has pos code)
    (ran : ∀ c, right c → ∃ c', c.run g.image.data code = .ok c' ∧
      c'.reg .sp = c.reg .sp + BitVec.ofNat 32 k ∧
      (∀ r ∈ [Reg.bp, .bx, .si, .di], c'.reg r = c.reg r) ∧ c'.mem = c.mem ∧ wider c') :
    g.Lands start (pos + code.length) n s wider := by
  obtain ⟨a, c₁, log₁, steps, keeps, holds, shown, result⟩ := first
  obtain ⟨c₂, done, sp, regs, mem, result₂⟩ := ran c₁ result
  have raised := Cpu.keeps_raise keeps sp regs mem
  have depth := raised.sp
  refine ⟨_, c₂, log₁, Image.steps_trans steps (Image.steps_run here done), raised, ?_, shown,
    result₂⟩
  exact holds_later sound holds (regs .bp (by decide)) (by omega) fun x _ => by rw [mem]

/-! Computing. -/

/-- Code that computes a result which evaluation only reads off. -/
theorem computes_reading (sound : g.Sound) {run : Eval Ω α} {right : α → Cpu → Prop}
    (computing : Computing code) (spares : ∀ i ∈ code, .dx ∉ i.sets)
    (ran : ∀ c s x after, g.Holds s.vars c → run s = .ok (x, after) →
      after = s ∧ ∃ c', c.run g.image.data code = .ok c' ∧ right x c') :
    g.Computes code run true right := by
  intro i c log s x after here holds shown _ done
  obtain ⟨rfl, c', computed, result⟩ := ran c s x after holds done
  exact lands_computing sound here holds shown computing computed
    ⟨result, fun _ => Cpu.run_reg spares computed⟩

/-- Code that goes on to compute with the result. -/
theorem computes_then (sound : g.Sound) {a b : List Instr} {run : Eval Ω α} {spares : Bool}
    {right : α → Cpu → Prop} {wider : β → Cpu → Prop} {f : α → β}
    (first : g.Computes a run spares right) (computing : Computing b)
    (spared : ∀ i ∈ b, .dx ∉ i.sets)
    (ran : ∀ x c, right x c → ∃ c', c.run g.image.data b = .ok c' ∧ wider (f x) c') :
    g.Computes (a ++ b) (run >>= fun x => pure (f x)) spares wider := by
  intro i c log s y after here holds shown lasts done
  obtain ⟨x, mid, evaluated, rest⟩ := Eval.bind_ok.mp done
  obtain ⟨rfl, rfl⟩ := Eval.pure_ok.mp rest
  obtain ⟨hereA, hereB⟩ := Image.has_append.mp here
  rw [List.length_append, ← Nat.add_assoc]
  refine lands_trans (k := 0) lasts (first i c log s x mid hereA holds shown lasts evaluated) ?_
  intro c₁ log₁ _ holds₁ shown₁ ⟨result₁, same₁⟩ _
  obtain ⟨c₂, computed, result₂⟩ := ran x c₁ result₁
  exact lands_computing sound hereB holds₁ shown₁ computing computed
    ⟨result₂, fun claimed => (Cpu.run_reg spared computed).trans (same₁ claimed)⟩

end

end Ground

end Ia32Backend
