import Ia32Backend.Proofs.Machine.Alone
import Ia32Backend.Proofs.Machine.Arithmetic
import Ia32Backend.Proofs.SlotAddress

/-!
The frame of a running function. Its slots hold the variables in scope; whatever lies on the stack
below and above it is left alone by the code of the function's body.
-/
namespace Ia32Backend

/-- Code that computes in the general registers, without a write to memory. -/
def Computing (code : List Instr) : Prop :=
  ∀ i ∈ code, (∀ r ∈ [Reg.sp, .bp, .bx, .si, .di], r ∉ i.sets) ∧ ∀ c, i.written c = none

theorem computing_of_computes {code : List Instr} (computes : code.all Instr.computes = true) :
    Computing code := by
  intro i member
  obtain ⟨sets, writes⟩ := Instr.computes_effect (List.all_eq_true.mp computes i member)
  refine ⟨fun r saved set => ?_, writes⟩
  have general := sets set
  revert saved general
  cases r <;> decide

namespace Cpu

/-- What code leaves alone that pushes so many bytes: the saved registers, and the stack apart from
what it may touch. -/
structure Keeps (touched : Word → Prop) (n : Nat) (c c' : Cpu) : Prop where
  sp : (c'.reg .sp).toNat + n = (c.reg .sp).toNat
  saved : ∀ r ∈ [Reg.bp, .bx, .si, .di], c'.reg r = c.reg r
  outside : ∀ x : Word, (c.reg .sp).toNat ≤ x.toNat → ¬ touched x → c'.mem x = c.mem x

section
variable {touched : Word → Prop} {n k : Nat} {c c' c'' : Cpu}

theorem keeps_refl (touched : Word → Prop) (c : Cpu) : Keeps touched 0 c c :=
  ⟨rfl, fun _ _ => rfl, fun _ _ _ => rfl⟩

theorem keeps_trans (first : Keeps touched n c c') (second : Keeps touched k c' c'') :
    Keeps touched (n + k) c c'' := by
  have sp := first.sp
  have deeper := second.sp
  refine ⟨by omega, fun r member => ?_, fun x high apart => ?_⟩
  · rw [second.saved r member, first.saved r member]
  · rw [second.outside x (by omega) apart, first.outside x high apart]

/-- A long on the stack that is not touched reads as before. -/
theorem keeps_read (keeps : Keeps touched n c c') {a : Word} (low : (c.reg .sp).toNat ≤ a.toNat)
    (ends : a.toNat + 4 ≤ 2 ^ 32) (apart : ∀ x, Memory.InCell a .long x → ¬ touched x) :
    c'.mem.read a .long = c.mem.read a .long := by
  refine Memory.read_congr ends fun x inside => ?_
  exact keeps.outside x (Nat.le_trans low inside.1) (apart x inside)

theorem keeps_computing {data : String → Word} {code : List Instr} (computing : Computing code)
    (ran : c.run data code = .ok c') : Keeps touched 0 c c' ∧ c'.mem = c.mem := by
  have mem := run_mem (fun i inside => (computing i inside).2) ran
  have regs : ∀ r ∈ [Reg.sp, .bp, .bx, .si, .di], c'.reg r = c.reg r :=
    fun r member => run_reg (fun i inside => (computing i inside).1 r member) ran
  refine ⟨⟨?_, ?_, ?_⟩, mem⟩
  · rw [regs .sp (by decide), Nat.add_zero]
  · exact fun r member => regs r (List.mem_cons_of_mem _ member)
  · exact fun x _ _ => by rw [mem]

theorem keeps_push {x : Word} (pushed : c.push x = .ok c') : Keeps touched 4 c c' := by
  obtain ⟨sp, _, regs, above⟩ := push_effect pushed
  refine ⟨sp, fun r member => ?_, fun y high _ => above y high⟩
  exact regs r (by rintro rfl; simp at member)

/-- The stack pointer goes back up over what was pushed. -/
theorem keeps_raise (keeps : Keeps touched (n + k) c c')
    (sp : c''.reg .sp = c'.reg .sp + BitVec.ofNat 32 k)
    (regs : ∀ r ∈ [Reg.bp, .bx, .si, .di], c''.reg r = c'.reg r) (mem : c''.mem = c'.mem) :
    Keeps touched n c c'' := by
  have depth := keeps.sp
  have bound := (c.reg .sp).isLt
  have raised : (c''.reg .sp).toNat = (c'.reg .sp).toNat + k := by
    rw [sp, toNat_add_ofNat (by omega)]
  refine ⟨by omega, ?_, ?_⟩
  · exact fun r member => (regs r member).trans (keeps.saved r member)
  · exact fun x high apart => by rw [mem, keeps.outside x high apart]

theorem keeps_write {a : Word} {w : Width} (v : BitVec w.bits) (ends : a.toNat + w.bytes ≤ 2 ^ 32)
    (inside : ∀ x, Memory.InCell a w x → touched x) :
    Keeps touched 0 c (c.setMem (c.mem.write a w v)) := by
  refine ⟨rfl, fun _ _ => rfl, fun x _ apart => ?_⟩
  exact Memory.write_outside _ _ ends fun cell => apart (inside x cell)

end

end Cpu

/-- A running function: what its code was written against, the bytes it reserved, and the frame
pointer. -/
structure Activation where
  env : Env
  reserved : Nat
  base : Word

namespace Activation

/-- A variable is kept so many bytes below the frame pointer. -/
structure At (A : Activation) (v : VarId) (d : Nat) (w : Width) : Prop where
  depth : A.env.frames.depthOf A.env.symbols v = some d
  width : ∃ s, A.env.symbols.vars[v.index]? = some s ∧ s.ty.width = w

/-- The processor holds the variables of a scope. -/
structure Holds (A : Activation) (scope : List VarId) (store : VarId → Word) (c : Cpu) : Prop where
  base : c.reg .bp = A.base
  room : (c.reg .sp).toNat + A.reserved ≤ A.base.toNat
  slots : ∀ v ∈ scope, ∀ d w, A.At v d w →
    c.mem.read (A.base - BitVec.ofNat 32 d) w = (store v).setWidth w.bits

/-- Whether an address lies among the slots. -/
def Inside (A : Activation) (x : Word) : Prop :=
  A.base.toNat ≤ x.toNat + A.reserved ∧ x.toNat < A.base.toNat

/-- What code leaves alone that pushes so many bytes: the saved registers, and the stack outside the
slots. -/
structure Kept (A : Activation) (n : Nat) (c c' : Cpu) : Prop where
  sp : (c'.reg .sp).toNat + n = (c.reg .sp).toNat
  saved : ∀ r ∈ [Reg.bp, .bx, .si, .di], c'.reg r = c.reg r
  outside : ∀ x : Word, (c.reg .sp).toNat ≤ x.toNat → ¬ A.Inside x → c'.mem x = c.mem x

section
variable {A : Activation} {scope : List VarId} {store : VarId → Word} {c c' c'' : Cpu}
  {n k d : Nat} {v : VarId} {w : Width}

theorem at_of_place {p : Place} (ok : A.env.place v = .ok p) :
    ∃ d, A.At v d p.width ∧ p.operand = .frame (Int32.ofInt (-(d : Int))) := by
  obtain ⟨s, offset, found, slot, rfl⟩ := Env.place_ok ok
  obtain ⟨d, depth, rfl⟩ := Frames.depth?_of_offset? slot
  exact ⟨d, ⟨Frames.depthOf_eq_some.mpr ⟨s.block, owner_of_variableAt found, depth⟩, s,
    SymbolTable.variableAt_eq_ok.mp found, rfl⟩, rfl⟩

theorem at_unique {u : Width} {e : Nat} (first : A.At v d w) (second : A.At v e u) :
    d = e ∧ w = u := by
  obtain ⟨s, here, rfl⟩ := first.width
  obtain ⟨s', there, rfl⟩ := second.width
  cases here.symm.trans there
  exact ⟨Option.some.inj (first.depth.symm.trans second.depth), rfl⟩

theorem at_bounds (laid : Layout.Laid A.env.symbols A.env.frames A.reserved scope)
    (known : v ∈ scope) (here : A.At v d w) : 4 ≤ d ∧ d ≤ A.reserved ∧ 4 ∣ d := by
  obtain ⟨e, slot, low, high, aligned⟩ := laid.placed v known
  cases here.depth.symm.trans slot
  exact ⟨low, high, aligned⟩

theorem holds_subset {part : List VarId} (holds : A.Holds scope store c) (subset : part ⊆ scope) :
    A.Holds part store c :=
  ⟨holds.base, holds.room, fun v known => holds.slots v (subset known)⟩

theorem kept_iff : A.Kept n c c' ↔ Cpu.Keeps A.Inside n c c' :=
  ⟨fun kept => ⟨kept.sp, kept.saved, kept.outside⟩,
    fun keeps => ⟨keeps.sp, keeps.saved, keeps.outside⟩⟩

theorem kept_refl (A : Activation) (c : Cpu) : A.Kept 0 c c := kept_iff.mpr (Cpu.keeps_refl _ c)

theorem kept_trans (first : A.Kept n c c') (second : A.Kept k c' c'') : A.Kept (n + k) c c'' :=
  kept_iff.mpr (Cpu.keeps_trans (kept_iff.mp first) (kept_iff.mp second))

theorem kept_mem (kept : A.Kept n c c') {a : Word} (low : (c.reg .sp).toNat ≤ a.toNat)
    (ends : a.toNat + 4 ≤ 2 ^ 32)
    (apart : a.toNat + 4 + A.reserved ≤ A.base.toNat ∨ A.base.toNat ≤ a.toNat) :
    c'.mem.read a .long = c.mem.read a .long := by
  refine Cpu.keeps_read (kept_iff.mp kept) low ends fun x inside => ?_
  simp only [Memory.InCell, Width.bytes] at inside
  rintro ⟨above, below⟩
  omega

/-- Variables are held wherever their slots read the same. -/
theorem holds_of_slots (holds : A.Holds scope store c)
    (laid : Layout.Laid A.env.symbols A.env.frames A.reserved scope)
    (base : c'.reg .bp = c.reg .bp) (room : (c'.reg .sp).toNat + A.reserved ≤ A.base.toNat)
    (same : ∀ x, A.Inside x → c'.mem x = c.mem x) : A.Holds scope store c' := by
  refine ⟨base.trans holds.base, room, fun v known d w here => ?_⟩
  obtain ⟨low, high, _⟩ := at_bounds laid known here
  have fits := holds.room
  have bound := A.base.isLt
  have address : (A.base - BitVec.ofNat 32 d).toNat = A.base.toNat - d :=
    toNat_sub_ofNat (by omega)
  have small : w.bytes ≤ 4 := by cases w <;> decide
  rw [← holds.slots v known d w here]
  refine Memory.read_congr (by omega) fun x inside => same x ?_
  simp only [Memory.InCell] at inside
  constructor <;> omega

theorem after_computing {data : String → Word} {code : List Instr} (computing : Computing code)
    (ran : c.run data code = .ok c') :
    A.Kept 0 c c' ∧ (A.Holds scope store c → A.Holds scope store c') := by
  obtain ⟨keeps, mem⟩ := Cpu.keeps_computing computing ran
  refine ⟨kept_iff.mpr keeps, fun holds => ⟨?_, ?_, ?_⟩⟩
  · exact (keeps.saved .bp (by decide)).trans holds.base
  · have sp := keeps.sp
    have room := holds.room
    omega
  · rw [mem]
    exact holds.slots

/-- What comes back from a call. -/
theorem after_call (returned : c.Returned c')
    (laid : Layout.Laid A.env.symbols A.env.frames A.reserved scope)
    (holds : A.Holds scope store c) : A.Kept 0 c c' ∧ A.Holds scope store c' := by
  have sp := returned.saved .sp (by decide)
  refine ⟨⟨?_, ?_, ?_⟩, ?_⟩
  · rw [sp, Nat.add_zero]
  · exact fun r member => returned.saved r (List.mem_cons_of_mem _ member)
  · exact fun x high _ => returned.above x high
  · refine holds_of_slots holds laid (returned.saved .bp (by decide)) ?_ ?_
    · rw [sp]
      exact holds.room
    · intro x inside
      have room := holds.room
      exact returned.above x (by have low := inside.1; omega)

theorem after_push {x : Word} (pushed : c.push x = .ok c')
    (laid : Layout.Laid A.env.symbols A.env.frames A.reserved scope)
    (holds : A.Holds scope store c) :
    A.Kept 4 c c' ∧ A.Holds scope store c' ∧ c'.top = x ∧ ∀ r, r ≠ .sp → c'.reg r = c.reg r := by
  obtain ⟨sp, top, regs, above⟩ := Cpu.push_effect pushed
  have room := holds.room
  refine ⟨kept_iff.mpr (Cpu.keeps_push pushed), ?_, top, regs⟩
  refine holds_of_slots holds laid (regs .bp (by decide)) (by omega) fun y inside => ?_
  exact above y (by have low := inside.1; omega)

/-- The stack pointer goes back up over what was pushed. -/
theorem after_raise (kept : A.Kept (n + k) c c') (holds : A.Holds scope store c')
    (room : (c.reg .sp).toNat + A.reserved ≤ A.base.toNat)
    (sp : c''.reg .sp = c'.reg .sp + BitVec.ofNat 32 k)
    (regs : ∀ r ∈ [Reg.bp, .bx, .si, .di], c''.reg r = c'.reg r) (mem : c''.mem = c'.mem) :
    A.Kept n c c'' ∧ A.Holds scope store c'' := by
  have keeps := Cpu.keeps_raise (kept_iff.mp kept) sp regs mem
  have depth := keeps.sp
  refine ⟨kept_iff.mpr keeps, ⟨(regs .bp (by decide)).trans holds.base, by omega, ?_⟩⟩
  rw [mem]
  exact holds.slots

/-- A variable takes a new word; no other variable in scope is touched. -/
theorem after_store {part : List VarId}
    (laid : Layout.Laid A.env.symbols A.env.frames A.reserved scope) (subset : part ⊆ scope)
    (known : v ∈ scope) (here : A.At v d w) (holds : A.Holds part store c) (x : Word) :
    A.Kept 0 c (c.setMem (c.mem.write (A.base - BitVec.ofNat 32 d) w (x.setWidth w.bits))) ∧
      A.Holds (part ++ [v]) (fun u => if u = v then x else store u)
        (c.setMem (c.mem.write (A.base - BitVec.ofNat 32 d) w (x.setWidth w.bits))) := by
  obtain ⟨low, high, aligned⟩ := at_bounds laid known here
  have room := holds.room
  have bound := A.base.isLt
  have address : (A.base - BitVec.ofNat 32 d).toNat = A.base.toNat - d :=
    toNat_sub_ofNat (by omega)
  have small : w.bytes ≤ 4 := by cases w <;> decide
  refine ⟨kept_iff.mpr (Cpu.keeps_write _ (by omega) ?_), ⟨holds.base, room, ?_⟩⟩
  · rintro y ⟨first, last⟩
    exact ⟨by omega, by omega⟩
  · intro u member e width there
    by_cases same : u = v
    · subst u
      obtain ⟨rfl, rfl⟩ := at_unique there here
      rw [if_pos rfl]
      exact Memory.read_write_same _ _ _ _
    · have other : u ∈ part := by simpa [same] using member
      rw [if_neg same, ← holds.slots u other e width there]
      obtain ⟨lowE, highE, alignedE⟩ := at_bounds laid (subset other) there
      have addressE : (A.base - BitVec.ofNat 32 e).toNat = A.base.toNat - e :=
        toNat_sub_ofNat (by omega)
      have smallE : width.bytes ≤ 4 := by cases width <;> decide
      have distinct : d ≠ e := by
        rintro rfl
        exact same (laid.apart u (subset other) v known (by rw [there.depth, here.depth]))
      exact Memory.read_write_apart _ _ (by omega) (by omega) (by omega)

theorem value_slot (data : String → Word) (holds : A.Holds scope store c) (known : v ∈ scope)
    (here : A.At v d w) :
    c.value data w (.frame (Int32.ofInt (-(d : Int)))) = (store v).setWidth w.bits := by
  rw [← holds.slots v known d w here, ← holds.base, ← add_neg_disp]
  rfl

end

end Activation

end Ia32Backend
