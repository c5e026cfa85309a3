import Ia32Backend.Proofs.LiveSlots
import Ia32Backend.Proofs.SameCode

/-!
The blocks that a function touches: its own and those that own a variable it takes, declares or
refers to. Frames of other blocks have no part in what becomes of the function, so two runs from
frames that agree on the touched blocks fail alike or write the same code.
-/
namespace Ia32Backend

/-- Both fail with one fault, or both succeed with related values. -/
def Alike {α β : Type} (Related : α → β → Prop) : Except Fault α → Except Fault β → Prop
  | .ok a, .ok b => Related a b
  | .error cause, .error other => cause = other
  | _, _ => False

section
variable {α β γ δ : Type} {Related : α → β → Prop} {Later : γ → δ → Prop}

theorem alike_pure {a : α} {b : β} (related : Related a b) : Alike Related (pure a) (pure b) :=
  related

theorem alike_bind {x : Except Fault α} {y : Except Fault β} {f : α → Except Fault γ}
    {g : β → Except Fault δ} (first : Alike Related x y)
    (rest : ∀ a b, Related a b → Alike Later (f a) (g b)) : Alike Later (x >>= f) (y >>= g) := by
  cases x with
  | error cause =>
    cases y with
    | error other => exact first
    | ok b => exact first.elim
  | ok a =>
    cases y with
    | error other => exact first.elim
    | ok b => exact rest a b first

/-- One and the same step before both. -/
theorem alike_after {x : Except Fault α} {f : α → Except Fault γ} {g : α → Except Fault δ}
    (rest : ∀ a, x = .ok a → Alike Later (f a) (g a)) : Alike Later (x >>= f) (x >>= g) := by
  cases x with
  | error cause => exact (rfl : cause = cause)
  | ok a => exact rest a rfl

/-- Two steps of which one gives what the other gives, changed by a function. -/
theorem alike_of_map {x : Except Fault α} {y : Except Fault β} {g : β → α} (same : x = y.map g) :
    Alike (fun a b => a = g b ∧ y = .ok b) x y := by
  subst x
  cases y with
  | error cause => exact (rfl : cause = cause)
  | ok b => exact ⟨rfl, rfl⟩

theorem alike_ok {x : Except Fault α} {y : Except Fault β} (alike : Alike Related x y) {b : β}
    (ok : y = .ok b) : ∃ a, x = .ok a ∧ Related a b := by
  subst y
  cases x with
  | error cause => exact alike.elim
  | ok a => exact ⟨a, rfl, alike⟩

theorem alike_error {x : Except Fault α} {y : Except Fault β} (alike : Alike Related x y)
    {cause : Fault} (fails : y = .error cause) : x = .error cause := by
  subst y
  cases x with
  | error other => rw [show other = cause from alike]
  | ok a => exact alike.elim

end

namespace Frames

/-- Frames that agree on some blocks. -/
def SameOn (blocks : List BlockId) (fs gs : Frames) : Prop :=
  ∀ b ∈ blocks, fs.frame b = gs.frame b

section
variable {blocks : List BlockId} {fs gs : Frames}

theorem reach_same (same : SameOn blocks fs gs) {b : BlockId} (touched : b ∈ blocks) :
    fs.reach b = gs.reach b := by
  rw [reach, same b touched]
  rfl

theorem offset?_same (same : SameOn blocks fs gs) {b : BlockId} (touched : b ∈ blocks)
    (v : VarId) : fs.offset? b v = gs.offset? b v := by
  rw [offset?, same b touched]
  rfl

theorem sameOn_allocate (same : SameOn blocks fs gs) {b : BlockId} (touched : b ∈ blocks)
    (ty : ValueType) (v : VarId) :
    SameOn blocks (fs.allocate b ty v).2 (gs.allocate b ty v).2 := by
  have slots := offset?_same same touched v
  cases old : gs.offset? b v with
  | some offset =>
    rw [old] at slots
    rwa [allocate_of_some fs slots, allocate_of_some gs old]
  | none =>
    rw [old] at slots
    intro c inside
    by_cases here : b = c
    · subst c
      rw [frame_allocate_of_none fs slots, frame_allocate_of_none gs old, same b touched]
    · rw [frame_allocate_of_ne fs here, frame_allocate_of_ne gs here, same c inside]

theorem sameOn_openUnder (same : SameOn blocks fs gs) {child parent : BlockId}
    (touched : child ∈ blocks) (around : parent ∈ blocks) :
    SameOn blocks (fs.openUnder child parent) (gs.openUnder child parent) := by
  intro c inside
  by_cases here : child = c
  · subst c
    rw [frame_openUnder_self, frame_openUnder_self, same child touched, reach_same same around]
  · rw [frame_openUnder_of_ne fs here, frame_openUnder_of_ne gs here, same c inside]

end

end Frames

/-- The owners of some variables are among some blocks. -/
def OwnersIn (symbols : SymbolTable) (blocks : List BlockId) (vars : List VarId) : Prop :=
  ∀ v ∈ vars, ∀ b, symbols.owner? v = some b → b ∈ blocks

section
variable {symbols : SymbolTable} {blocks : List BlockId}

theorem ownersIn_cons {v : VarId} {vars : List VarId}
    (owners : OwnersIn symbols blocks (v :: vars)) :
    (∀ s, symbols.variableAt v = .ok s → s.block ∈ blocks) ∧ OwnersIn symbols blocks vars :=
  ⟨fun _ found => owners v List.mem_cons_self _ (owner_of_variableAt found),
    fun w member => owners w (List.mem_cons_of_mem v member)⟩

theorem ownersIn_append {vars more : List VarId} :
    OwnersIn symbols blocks (vars ++ more) ↔
      OwnersIn symbols blocks vars ∧ OwnersIn symbols blocks more := by
  simp only [OwnersIn, List.mem_append, or_imp, forall_and]

end

namespace Layout

structure SameOn (blocks : List BlockId) (l m : Layout) : Prop where
  frames : l.frames.SameOn blocks m.frames
  reserved : l.reserved = m.reserved

section
variable {symbols : SymbolTable} {blocks : List BlockId}

theorem sameOn_reserve {l m : Layout} (same : SameOn blocks l m) {b : BlockId}
    (touched : b ∈ blocks) : SameOn blocks (l.reserve b) (m.reserve b) := by
  refine ⟨same.frames, ?_⟩
  simp only [reserve, same.reserved, Frames.reach_same same.frames touched]

theorem alike_declareAll (vars : List VarId) :
    ∀ {l m : Layout}, SameOn blocks l m → OwnersIn symbols blocks vars →
      Alike (SameOn blocks) (l.declareAll symbols vars) (m.declareAll symbols vars) := by
  induction vars with
  | nil => exact fun same _ => alike_pure same
  | cons v rest ih =>
    intro l m same owners
    obtain ⟨owner, others⟩ := ownersIn_cons owners
    simp only [declareAll, declare, bind_assoc, pure_bind]
    refine alike_after fun s found => ih (sameOn_reserve ?_ (owner s found)) others
    exact ⟨Frames.sameOn_allocate same.frames (owner s found) s.ty v, same.reserved⟩

theorem alike_addBody (body : List Stmt) :
    ∀ {id : BlockId} {l m : Layout}, SameOn blocks l m → id ∈ blocks →
      Stmt.blockIdsOf body ⊆ blocks →
      OwnersIn symbols blocks ((Stmt.declarationsOf id body).map Prod.snd) →
      Alike (SameOn blocks) (addBody symbols id l body) (addBody symbols id m body) := by
  induction body using Stmt.body_induction with
  | nil => exact fun same touched _ _ => alike_pure (sameOn_reserve same touched)
  | cons s rest inner ih =>
    intro id l m same touched inside owners
    simp only [Stmt.blockIdsOf, List.append_subset] at inside
    rw [Stmt.declarationsOf, List.map_append, ownersIn_append] at owners
    refine alike_bind ?_ fun a b related => ih related touched inside.2 owners.2
    rcases s.shape with ⟨vars, rfl⟩ | ⟨child, body, nests⟩ | flat
    · refine alike_declareAll vars same ?_
      simpa [Stmt.declarations, Function.comp_def] using owners.1
    · rw [nests.blockIds, List.cons_subset] at inside
      rw [nests.declarations] at owners
      rw [addStmt_nested nests, addStmt_nested nests]
      refine inner child body nests ?_ inside.1.1 inside.1.2 owners.1
      exact ⟨Frames.sameOn_openUnder same.frames inside.1.1 touched, same.reserved⟩
    · rw [addStmt_flat flat, addStmt_flat flat]
      exact same

theorem alike_addParams (params : List VarId) :
    ∀ {fs gs : Frames}, fs.SameOn blocks gs → OwnersIn symbols blocks params →
      Alike (Frames.SameOn blocks) (addParams symbols fs params) (addParams symbols gs params) := by
  induction params with
  | nil => exact fun same _ => alike_pure same
  | cons v rest ih =>
    intro fs gs same owners
    obtain ⟨owner, others⟩ := ownersIn_cons owners
    exact alike_after fun s found =>
      ih (Frames.sameOn_allocate same (owner s found) s.ty v) others

theorem alike_openBelowParams {body : BlockId} (touched : body ∈ blocks) (params : List VarId) :
    ∀ {fs gs : Frames}, fs.SameOn blocks gs → OwnersIn symbols blocks params →
      Alike (Frames.SameOn blocks) (openBelowParams symbols body fs params)
        (openBelowParams symbols body gs params) := by
  induction params with
  | nil => exact fun same _ => alike_pure same
  | cons v rest ih =>
    intro fs gs same owners
    obtain ⟨owner, others⟩ := ownersIn_cons owners
    refine alike_after fun s found => ih ?_ others
    split
    · exact same
    · exact Frames.sameOn_openUnder same touched (owner s found)

theorem alike_ofFunction {fs gs : Frames} (same : fs.SameOn blocks gs) {f : FunctionDecl}
    (own : f.blockIds ⊆ blocks) (owners : OwnersIn symbols blocks f.vars) :
    Alike (SameOn blocks) (ofFunction symbols fs f) (ofFunction symbols gs f) := by
  obtain ⟨params, locals⟩ := ownersIn_append.mp owners
  obtain ⟨body, nested⟩ := List.cons_subset.mp own
  refine alike_bind (alike_addParams f.params same params) fun _ _ placed => ?_
  refine alike_bind (alike_openBelowParams body f.params placed params) fun _ _ opened => ?_
  exact alike_addBody f.body.body ⟨opened, Frames.reach_same opened body⟩ body nested locals

end

end Layout

/-! Code. -/

section
variable {env : Env} {frames : Frames} {blocks : List BlockId}

theorem place_same (same : env.frames.SameOn blocks frames) {v : VarId}
    (owner : ∀ s, env.symbols.variableAt v = .ok s → s.block ∈ blocks) :
    env.place v = Env.place { env with frames := frames } v := by
  simp only [Env.place]
  cases found : env.symbols.variableAt v with
  | error cause => rfl
  | ok s =>
    have slot := Frames.offset?_same same (owner s found) v
    simp only [bind, Except.bind, Frames.slotOffset, slot]

/-- Frames that agree on the owners of some variables give code for these the same slots. -/
theorem sameFor_frames (same : env.frames.SameOn blocks frames) {names : List VarId}
    (owners : OwnersIn env.symbols blocks names) :
    env.SameFor names { env with frames := frames } where
  symbols := rfl
  strings := rfl
  places := fun v member =>
    place_same same fun _ found => owners v member _ (owner_of_variableAt found)

end

namespace FunctionDecl

/-- Variables that a function refers to. -/
def names (f : FunctionDecl) : List VarId := usedNames f.uses

/-- The function's own blocks and the owners of its parameters, locals and references. -/
def touched (symbols : SymbolTable) (f : FunctionDecl) : List BlockId :=
  f.blocksUsed symbols ++ f.names.filterMap symbols.owner?

theorem ownersIn_touched (symbols : SymbolTable) (f : FunctionDecl) :
    OwnersIn symbols (f.touched symbols) f.vars ∧
      OwnersIn symbols (f.touched symbols) f.names := by
  constructor
  · intro v member b owner
    exact List.mem_append_left _ (List.mem_append_right _
      (List.mem_filterMap.mpr ⟨v, member, owner⟩))
  · intro v member b owner
    exact List.mem_append_right _ (List.mem_filterMap.mpr ⟨v, member, owner⟩)

end FunctionDecl

end Ia32Backend
