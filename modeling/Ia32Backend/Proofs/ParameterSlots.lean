import Ia32Backend.Proofs.FrameHistory
import Ia32Backend.Proofs.LiveSlots

/-!
Slots of parameters whose blocks may differ. Every block that owns a parameter starts its frame at
the frame pointer, so parameters of two blocks lie on the same word. Parameters of one block, and
the locals that stand directly in the body, lie apart and inside the reserved bytes.
-/
namespace Ia32Backend

/-- Parameters, and the body's own locals that stand directly in it. -/
def FunctionDecl.frontVars (symbols : SymbolTable) (f : FunctionDecl) : List VarId :=
  f.params ++ (f.body.body.flatMap Stmt.declared).filter
    fun v => symbols.owner? v = some f.body.id

namespace Frame

theorem depthIn_bounds {base d : Nat} {v : VarId} {slots : List Slot}
    (size : ∀ s ∈ slots, s.size = 4) (found : depthIn base v slots = some d) :
    base + 4 ≤ d ∧ d ≤ base + bytes slots ∧ 4 ∣ d - base := by
  induction slots with
  | nil => cases found
  | cons s older ih =>
    have first := size s List.mem_cons_self
    have below := fun t member => size t (List.mem_cons_of_mem s member)
    have total := bytes_eq older below
    rw [depthIn] at found
    split at found
    · cases found
      rw [bytes]
      omega
    · obtain ⟨low, high, aligned⟩ := ih below found
      rw [bytes]
      omega

theorem depthIn_injective {base d : Nat} {u v : VarId} {slots : List Slot}
    (size : ∀ s ∈ slots, s.size = 4) (left : depthIn base u slots = some d)
    (right : depthIn base v slots = some d) : u = v := by
  induction slots with
  | nil => cases left
  | cons s older ih =>
    have first := size s List.mem_cons_self
    have below := fun t member => size t (List.mem_cons_of_mem s member)
    -- The newest slot is deeper than those below it in the list.
    have deepest : ∀ w, depthIn base w older ≠ some (base + bytes (s :: older)) := by
      intro w found
      have bound := (depthIn_bounds below found).2.1
      rw [bytes] at bound
      omega
    rw [depthIn] at left right
    split at left <;> split at right
    · rename_i isLeft isRight
      exact isLeft.symm.trans isRight
    · rw [← left] at right
      exact (deepest v right).elim
    · rw [← right] at left
      exact (deepest u left).elim
    · exact ih below left right

theorem depth?_bounds {f : Frame} {v : VarId} {d : Nat} (words : f.Wordwise)
    (found : f.depth? v = some d) : f.base + 4 ≤ d ∧ d ≤ f.reach ∧ 4 ∣ d := by
  obtain ⟨low, high, aligned⟩ := depthIn_bounds words.size found
  have base := words.base
  refine ⟨low, high, ?_⟩
  omega

theorem depth?_injective {f : Frame} {u v : VarId} {d : Nat} (words : f.Wordwise)
    (left : f.depth? u = some d) (right : f.depth? v = some d) : u = v :=
  depthIn_injective words.size left right

theorem base_le_openBelow (f : Frame) (depth : Nat) : f.base ≤ (f.openBelow depth).base := by
  unfold openBelow
  split
  · exact Nat.le_max_left _ _
  · exact Nat.le_refl _

end Frame

namespace Frames

/-- No frame has moved up. -/
def Sinks (fs later : Frames) : Prop := ∀ b, (fs.frame b).base ≤ (later.frame b).base

theorem sinks_refl (fs : Frames) : fs.Sinks fs := fun _ => Nat.le_refl _

theorem sinks_trans {fs mid later : Frames} (first : fs.Sinks mid) (second : mid.Sinks later) :
    fs.Sinks later :=
  fun b => Nat.le_trans (first b) (second b)

theorem sinks_allocate (fs : Frames) (b : BlockId) (ty : ValueType) (v : VarId) :
    fs.Sinks (fs.allocate b ty v).2 := by
  intro c
  by_cases here : b = c
  · subst c
    cases old : fs.offset? b v with
    | some offset => exact Nat.le_of_eq (by rw [allocate_of_some fs old])
    | none => exact Nat.le_of_eq (by rw [frame_allocate_of_none fs old]; rfl)
  · exact Nat.le_of_eq (by rw [frame_allocate_of_ne fs here])

theorem sinks_openUnder (fs : Frames) (child parent : BlockId) :
    fs.Sinks (fs.openUnder child parent) := by
  intro c
  by_cases here : child = c
  · subst c
    rw [frame_openUnder_self]
    exact Frame.base_le_openBelow _ _
  · exact Nat.le_of_eq (by rw [frame_openUnder_of_ne fs here])

end Frames

namespace Layout

theorem sinks_declareAll {symbols : SymbolTable} {l after : Layout} {vars : List VarId}
    (ok : l.declareAll symbols vars = .ok after) : l.frames.Sinks after.frames := by
  induction vars generalizing l with
  | nil =>
    cases pure_eq_ok.mp ok
    exact Frames.sinks_refl _
  | cons v rest ih =>
    obtain ⟨mid, first, later⟩ := declareAll_cons_ok ok
    obtain ⟨s, _, rfl⟩ := declare_ok first
    exact Frames.sinks_trans (Frames.sinks_allocate _ _ _ _) (ih later)

theorem sinks_addBody (symbols : SymbolTable) (body : List Stmt) :
    ∀ id l after, addBody symbols id l body = .ok after → l.frames.Sinks after.frames := by
  induction body using Stmt.body_induction with
  | nil =>
    intro id l after ok
    cases pure_eq_ok.mp ok
    exact Frames.sinks_refl _
  | cons s rest inner ih =>
    intro id l after ok
    obtain ⟨mid, first, later⟩ := addBody_cons_ok ok
    refine Frames.sinks_trans ?_ (ih id mid after later)
    rcases s.shape with ⟨vars, rfl⟩ | ⟨child, body, nests⟩ | flat
    · exact sinks_declareAll first
    · rw [addStmt_nested nests] at first
      exact Frames.sinks_trans (Frames.sinks_openUnder l.frames child id)
        (inner child body nests _ _ _ first)
    · rw [addStmt_flat flat] at first
      cases first
      exact Frames.sinks_refl _

/-- A variable has a slot, and the reserved bytes take it in. -/
def Covers (symbols : SymbolTable) (l : Layout) (v : VarId) : Prop :=
  ∃ d, l.frames.depthOf symbols v = some d ∧ d ≤ l.reserved

theorem covers_later {symbols : SymbolTable} {l later : Layout} {v : VarId}
    (covers : l.Covers symbols v) (grows : l.Grows later) : later.Covers symbols v := by
  obtain ⟨d, slot, room⟩ := covers
  exact ⟨d, Frames.depthOf_extends grows.slots slot, Nat.le_trans room grows.reserved⟩

theorem covers_declare {symbols : SymbolTable} {l after : Layout} {v : VarId}
    (words : l.frames.Wordwise) (ok : l.declare symbols v = .ok after) :
    after.Covers symbols v := by
  have wordsAfter := (grows_declare ok).words words
  obtain ⟨s, found, rfl⟩ := declare_ok ok
  obtain ⟨d, slot, _⟩ := Frames.depth?_of_offset? (Frames.offset?_allocate_self _ _ s.ty _)
  refine ⟨d, ?_, ?_⟩
  · rw [depthOf_owned (owner_of_variableAt found)]
    exact slot
  · exact Nat.le_trans (Frame.depth?_bounds (wordsAfter _) slot).2.1 (Nat.le_max_right _ _)

theorem covers_declareAll {symbols : SymbolTable} {l after : Layout} {vars : List VarId}
    (words : l.frames.Wordwise) (ok : l.declareAll symbols vars = .ok after) :
    ∀ v ∈ vars, after.Covers symbols v := by
  induction vars generalizing l with
  | nil => simp
  | cons v rest ih =>
    obtain ⟨mid, first, later⟩ := declareAll_cons_ok ok
    rw [List.forall_mem_cons]
    exact ⟨covers_later (covers_declare words first) (grows_declareAll later),
      ih ((grows_declare first).words words) later⟩

theorem grows_addStmt {symbols : SymbolTable} {parent : BlockId} {l after : Layout} {s : Stmt}
    (ok : addStmt symbols parent l s = .ok after) : l.Grows after := by
  rcases s.shape with ⟨vars, rfl⟩ | ⟨child, body, nests⟩ | flat
  · exact grows_declareAll ok
  · rw [addStmt_nested nests] at ok
    exact grows_trans (grows_openUnder l child parent) (grows_addBody symbols body _ _ _ ok)
  · rw [addStmt_flat flat] at ok
    cases ok
    exact grows_refl l

/-- What stands directly in a body is covered, whatever the blocks inside it do. -/
theorem covers_addBody {symbols : SymbolTable} {id : BlockId} {body : List Stmt}
    {l after : Layout} (words : l.frames.Wordwise) (ok : addBody symbols id l body = .ok after) :
    ∀ v ∈ body.flatMap Stmt.declared, after.Covers symbols v := by
  induction body generalizing l with
  | nil => simp
  | cons s rest ih =>
    obtain ⟨mid, first, later⟩ := addBody_cons_ok ok
    intro v member
    rw [List.flatMap_cons, List.mem_append] at member
    rcases member with here | ahead
    · rcases s.shape with ⟨vars, rfl⟩ | ⟨child, body, nests⟩ | flat
      · exact covers_later (covers_declareAll words first v here)
          (grows_addBody symbols rest id mid after later)
      · rw [nests.declared] at here
        cases here
      · rw [flat.declared] at here
        cases here
    · exact ih ((grows_addStmt first).words words) later v ahead

/-! Parameters. -/

theorem owner_of_param {symbols : SymbolTable} {frames after : Frames} {params : List VarId}
    (ok : addParams symbols frames params = .ok after) :
    ∀ v ∈ params, ∃ b, symbols.owner? v = some b := by
  induction params generalizing frames with
  | nil => simp
  | cons v rest ih =>
    obtain ⟨s, found, later⟩ := addParams_cons_ok ok
    rw [List.forall_mem_cons]
    exact ⟨⟨s.block, owner_of_variableAt found⟩, ih later⟩

/-- The first parameter of a block takes the word next to the frame pointer, whichever blocks own
the others. -/
theorem first_param_of_block {symbols : SymbolTable} {b : BlockId} {frames after : Frames}
    {params : List VarId} (fresh : frames.frame b = {})
    (ok : addParams symbols frames params = .ok after)
    (owned : ∃ v ∈ params, symbols.owner? v = some b) :
    ∃ v ∈ params, symbols.owner? v = some b ∧ after.depthOf symbols v = some 4 := by
  induction params generalizing frames with
  | nil => simp at owned
  | cons v rest ih =>
    obtain ⟨s, found, later⟩ := addParams_cons_ok ok
    have owner := owner_of_variableAt found
    by_cases here : s.block = b
    · subst b
      have missing : frames.offset? s.block v = none := by
        simp [Frames.offset?, fresh, Frame.depth?, Frame.depthIn]
      have slot : (frames.allocate s.block s.ty v).2.depthOf symbols v = some 4 := by
        rw [depthOf_owned owner, Frames.frame_allocate_of_none frames missing,
          Frame.depth?_push_self, Frame.reach_push, fresh]
        rfl
      exact ⟨v, List.mem_cons_self, owner, Frames.depthOf_extends (extends_addParams later).1 slot⟩
    · obtain ⟨w, member, ownerOfRest⟩ := owned
      rcases List.mem_cons.mp member with same | inRest
      · subst w
        rw [owner, Option.some.injEq] at ownerOfRest
        exact (here ownerOfRest).elim
      · obtain ⟨u, uRest, ownerU, slot⟩ := ih
          (by rw [Frames.frame_allocate_of_ne _ here, fresh]) later ⟨w, inRest, ownerOfRest⟩
        exact ⟨u, List.mem_cons_of_mem v uRest, ownerU, slot⟩

theorem slots_openBelowParams {symbols : SymbolTable} {body : BlockId} {frames after : Frames}
    {params : List VarId} (ok : openBelowParams symbols body frames params = .ok after) :
    (after.frame body).slots = (frames.frame body).slots := by
  induction params generalizing frames with
  | nil =>
    cases pure_eq_ok.mp ok
    rfl
  | cons v rest ih =>
    obtain ⟨s, _, later⟩ := openBelowParams_cons_ok ok
    rw [ih later]
    split
    · rfl
    · rw [Frames.frame_openUnder_self, Frame.slots_openBelow]

/-- A parameter that does not lie in the body's frame lies above all of it. -/
theorem param_eq_of_depth {symbols : SymbolTable} {frames : Frames} {taken : List BlockId}
    {f : FunctionDecl} {after : Layout} {b : BlockId} {u v : VarId} {d : Nat}
    (clean : Clean frames taken) (freshBody : f.body.id ∉ taken) (freshOwner : b ∉ taken)
    (owned : ∀ v ∈ f.params, symbols.owner? v = some b)
    (ok : ofFunction symbols frames f = .ok after) (param : u ∈ f.params)
    (slotU : after.frames.depthOf symbols u = some d)
    (slotV : (after.frames.frame f.body.id).depth? v = some d) : u = v := by
  obtain ⟨placed, opened, first, second, third⟩ := ofFunction_ok ok
  have point := point_body clean freshBody freshOwner owned first second
  have grows := grows_addBody symbols f.body.body _ _ _ third
  have words := grows.words point.words
  by_cases own : b = f.body.id
  · rw [depthOf_owned ((owned u param).trans (congrArg some own))] at slotU
    exact Frame.depth?_injective (words _) slotU slotV
  · have empty : (opened.frame f.body.id).slots = [] := by
      rw [slots_openBelowParams second, frame_addParams_other owned first (Ne.symm own),
        clean.rest _ freshBody]
    obtain ⟨e, start, _, limit, _⟩ := point.laid.placed u param
    have same := Frames.depthOf_extends grows.slots start
    rw [slotU, Option.some.injEq] at same
    have base : opened.reach f.body.id = (opened.frame f.body.id).base := by
      simp [Frames.reach, Frame.reach, Frame.ownBytes, empty, Frame.bytes]
    have sunk := sinks_addBody symbols f.body.body _ _ _ third f.body.id
    have below := (Frame.depth?_bounds (words _) slotV).1
    simp only at sunk
    omega

/-- Locals that stand directly in the body are added to a scope of parameters in one frame. -/
theorem laid_frontVars {symbols : SymbolTable} {frames : Frames} {taken : List BlockId}
    {f : FunctionDecl} {after : Layout} {b : BlockId} (clean : Clean frames taken)
    (freshBody : f.body.id ∉ taken) (freshOwner : b ∉ taken)
    (owned : ∀ v ∈ f.params, symbols.owner? v = some b)
    (ok : ofFunction symbols frames f = .ok after) :
    Laid symbols after.frames after.reserved (f.frontVars symbols) := by
  obtain ⟨placed, opened, first, second, third⟩ := ofFunction_ok ok
  have point := point_body clean freshBody freshOwner owned first second
  have grows := grows_addBody symbols f.body.body _ _ _ third
  have words := grows.words point.words
  have params : Laid symbols after.frames after.reserved f.params :=
    laid_later point.laid grows.slots grows.reserved
  have locals : ∀ v, symbols.owner? v = some f.body.id → v ∈ f.body.body.flatMap Stmt.declared →
      ∃ d, (after.frames.frame f.body.id).depth? v = some d ∧ d ≤ after.reserved := by
    intro v owner declared
    obtain ⟨d, slot, room⟩ := covers_addBody point.words third v declared
    rw [depthOf_owned owner] at slot
    exact ⟨d, slot, room⟩
  have above : ∀ u ∈ f.params, ∀ v d, after.frames.depthOf symbols u = some d →
      (after.frames.frame f.body.id).depth? v = some d → u = v :=
    fun _ param _ _ => param_eq_of_depth clean freshBody freshOwner owned ok param
  refine ⟨?_, ?_⟩
  · intro v member
    rcases List.mem_append.mp member with param | declared
    · exact params.placed v param
    · rw [List.mem_filter, decide_eq_true_eq] at declared
      obtain ⟨d, slot, room⟩ := locals v declared.2 declared.1
      obtain ⟨low, _, aligned⟩ := Frame.depth?_bounds (words _) slot
      rw [depthOf_owned declared.2]
      exact ⟨d, slot, by omega, room, aligned⟩
  · intro u hu v hv equal
    rcases List.mem_append.mp hu with paramU | localU <;>
      rcases List.mem_append.mp hv with paramV | localV
    · exact params.apart u paramU v paramV equal
    · rw [List.mem_filter, decide_eq_true_eq] at localV
      obtain ⟨d, slot, _⟩ := locals v localV.2 localV.1
      rw [depthOf_owned localV.2, slot] at equal
      exact above u paramU v d equal slot
    · rw [List.mem_filter, decide_eq_true_eq] at localU
      obtain ⟨d, slot, _⟩ := locals u localU.2 localU.1
      rw [depthOf_owned localU.2, slot] at equal
      exact (above v paramV u d equal.symm slot).symm
    · rw [List.mem_filter, decide_eq_true_eq] at localU localV
      obtain ⟨d, slot, _⟩ := locals u localU.2 localU.1
      rw [depthOf_owned localU.2, depthOf_owned localV.2, slot] at equal
      exact Frame.depth?_injective (words _) slot equal.symm

/-- The bytes of two variables' slots do not meet. -/
def SlotsApart (symbols : SymbolTable) (l : Layout) (u v : VarId) : Prop :=
  ∃ a b, l.slotOf symbols u = .ok a ∧ l.slotOf symbols v = .ok b ∧ (a + 4 ≤ b ∨ b + 4 ≤ a)

/-- A variable's slot lies inside the reserved bytes. -/
def SlotReserved (symbols : SymbolTable) (l : Layout) (v : VarId) : Prop :=
  ∃ a, l.slotOf symbols v = .ok a ∧ -(l.reserved : Int) ≤ a ∧ a + 4 ≤ 0

theorem slots_of_laid {symbols : SymbolTable} {l : Layout} {scope : List VarId}
    (laid : Laid symbols l.frames l.reserved scope) :
    (∀ u ∈ scope, ∀ v ∈ scope, u ≠ v → l.SlotsApart symbols u v) ∧
      ∀ v ∈ scope, l.SlotReserved symbols v := by
  refine ⟨?_, ?_⟩
  · intro u hu v hv different
    obtain ⟨du, slotU, _, _, alignedU⟩ := laid.placed u hu
    obtain ⟨dv, slotV, _, _, alignedV⟩ := laid.placed v hv
    have depths : du ≠ dv := by
      intro same
      exact different (laid.apart u hu v hv (by rw [slotU, slotV, same]))
    refine ⟨_, _, slotOf_of_depthOf slotU, slotOf_of_depthOf slotV, ?_⟩
    omega
  · intro v member
    obtain ⟨d, slot, low, high, _⟩ := laid.placed v member
    refine ⟨_, slotOf_of_depthOf slot, ?_⟩
    omega

theorem not_slotsApart_of_depthOf {symbols : SymbolTable} {l : Layout} {u v : VarId} {d : Nat}
    (left : l.frames.depthOf symbols u = some d) (right : l.frames.depthOf symbols v = some d) :
    ¬ l.SlotsApart symbols u v := by
  rintro ⟨a, b, slotU, slotV, apart⟩
  rw [slotOf_of_depthOf left] at slotU
  rw [slotOf_of_depthOf right] at slotV
  cases slotU
  cases slotV
  omega

/-- A block that owns a parameter has one next to the frame pointer. -/
theorem param_next_to_base {symbols : SymbolTable} {frames : Frames} {taken : List BlockId}
    {f : FunctionDecl} {layout : Layout} {b : BlockId} (clean : Clean frames taken)
    (fresh : b ∉ taken) (ok : ofFunction symbols frames f = .ok layout)
    (owned : ∃ v ∈ f.params, symbols.owner? v = some b) :
    ∃ u ∈ f.params, symbols.owner? u = some b ∧ layout.frames.depthOf symbols u = some 4 := by
  obtain ⟨placed, opened, first, second, third⟩ := ofFunction_ok ok
  have kept : placed.Extends layout.frames :=
    Frames.extends_trans (openBelowParams_spec second).1
      (grows_addBody symbols _ _ _ _ third).slots
  obtain ⟨u, param, owner, slot⟩ := first_param_of_block (clean.rest b fresh) first owned
  exact ⟨u, param, owner, Frames.depthOf_extends kept slot⟩

/-- Over blocks that no earlier function has touched, the parameters and the body's own locals lie
apart and inside the reserved bytes just where one block owns all the parameters. -/
theorem front_slots_apart_iff {symbols : SymbolTable} {earlier : List FunctionDecl}
    {f : FunctionDecl} {frames : Frames} {layout : Layout}
    (before : afterAll symbols {} earlier = .ok frames)
    (fresh : ∀ b ∈ f.body.id :: f.params.filterMap symbols.owner?,
      b ∉ blocksTaken symbols earlier)
    (laid : ofFunction symbols frames f = .ok layout) :
    ((∀ u ∈ f.frontVars symbols, ∀ v ∈ f.frontVars symbols, u ≠ v →
        layout.SlotsApart symbols u v) ∧
      ∀ v ∈ f.frontVars symbols, layout.SlotReserved symbols v) ↔
    ∃ b, ∀ v ∈ f.params, symbols.owner? v = some b := by
  have clean := clean_afterAll clean_empty before
  rw [List.nil_append] at clean
  have freshOwner : ∀ v ∈ f.params, ∀ b, symbols.owner? v = some b →
      b ∉ blocksTaken symbols earlier := fun v member b owner =>
    fresh b (List.mem_cons_of_mem _ (List.mem_filterMap.mpr ⟨v, member, owner⟩))
  constructor
  · rintro ⟨apart, _⟩
    obtain ⟨_, _, first, _⟩ := ofFunction_ok laid
    cases params : f.params with
    | nil => exact ⟨f.body.id, by simp⟩
    | cons v rest =>
      have member : v ∈ f.params := by simp [params]
      obtain ⟨b, owner⟩ := owner_of_param first v member
      refine ⟨b, fun w memberW => ?_⟩
      rw [← params] at memberW
      obtain ⟨c, ownerW⟩ := owner_of_param first w memberW
      obtain ⟨u, paramU, ownerU, slotU⟩ := param_next_to_base clean
        (freshOwner v member b owner) laid ⟨v, member, owner⟩
      obtain ⟨x, paramX, ownerX, slotX⟩ := param_next_to_base clean
        (freshOwner w memberW c ownerW) laid ⟨w, memberW, ownerW⟩
      -- Both lie next to the frame pointer, so they are one variable.
      by_cases same : u = x
      · rw [ownerW, ← ownerX, ← same, ownerU]
      · exact (not_slotsApart_of_depthOf slotU slotX (apart u (List.mem_append_left _ paramU) x
          (List.mem_append_left _ paramX) same)).elim
  · rintro ⟨b, owned⟩
    by_cases none : f.params = []
    · exact slots_of_laid (laid_frontVars clean (fresh _ List.mem_cons_self)
        (fresh _ List.mem_cons_self) (by simp [none]) laid)
    · obtain ⟨v, member⟩ := List.exists_mem_of_ne_nil _ none
      exact slots_of_laid (laid_frontVars clean (fresh _ List.mem_cons_self)
        (freshOwner v member b (owned v member)) owned laid)

/-- Parameters `x`, `y` and `z` and a local `a`, behind a function whose block is 0. -/
def paramSymbols (x y z a : BlockId) : SymbolTable where
  vars := [⟨"before", .int, ⟨0⟩⟩, ⟨"x", .int, x⟩, ⟨"y", .char, y⟩, ⟨"z", .int, z⟩, ⟨"a", .int, a⟩]

def threeParams : FunctionDecl := ⟨⟨1⟩, [⟨1⟩, ⟨2⟩, ⟨3⟩], ⟨⟨1⟩, [.declare [⟨4⟩]]⟩⟩

theorem front_slots_apart_one_owner :
    ∃ frames layout,
      afterAll (paramSymbols ⟨5⟩ ⟨5⟩ ⟨5⟩ ⟨1⟩) {} [interleavedEarlier] = .ok frames ∧
      ofFunction (paramSymbols ⟨5⟩ ⟨5⟩ ⟨5⟩ ⟨1⟩) frames threeParams = .ok layout ∧
      layout.reserved = 16 ∧ layout.SlotsApart (paramSymbols ⟨5⟩ ⟨5⟩ ⟨5⟩ ⟨1⟩) ⟨3⟩ ⟨4⟩ ∧
      layout.SlotReserved (paramSymbols ⟨5⟩ ⟨5⟩ ⟨5⟩ ⟨1⟩) ⟨4⟩ := by
  refine ⟨_, _, rfl, rfl, rfl, ?_⟩
  obtain ⟨apart, inside⟩ := (@front_slots_apart_iff (paramSymbols ⟨5⟩ ⟨5⟩ ⟨5⟩ ⟨1⟩)
    [interleavedEarlier] threeParams _ _ rfl (by decide) rfl).mpr ⟨⟨5⟩, by decide⟩
  exact ⟨apart ⟨3⟩ (by decide) ⟨4⟩ (by decide) (by decide), inside ⟨4⟩ (by decide)⟩

/-- A parameter in the body's block keeps the body from opening below the block of the others: `x`
shares its word with `y`, the local `a` its own with `z`. -/
theorem mixed_owners_share :
    ∃ layout, ofFunction (paramSymbols ⟨1⟩ ⟨5⟩ ⟨5⟩ ⟨1⟩) {} threeParams = .ok layout ∧
      threeParams.params.Nodup ∧ layout.reserved = 8 ∧
      ⟨4⟩ ∈ threeParams.frontVars (paramSymbols ⟨1⟩ ⟨5⟩ ⟨5⟩ ⟨1⟩) ∧
      ¬ layout.SlotsApart (paramSymbols ⟨1⟩ ⟨5⟩ ⟨5⟩ ⟨1⟩) ⟨1⟩ ⟨2⟩ ∧
      ¬ layout.SlotsApart (paramSymbols ⟨1⟩ ⟨5⟩ ⟨5⟩ ⟨1⟩) ⟨3⟩ ⟨4⟩ := by
  refine ⟨_, rfl, by decide, rfl, by decide, ?_, ?_⟩
  · exact not_slotsApart_of_depthOf (d := 4) rfl rfl
  · exact not_slotsApart_of_depthOf (d := 8) rfl rfl

end Layout

end Ia32Backend
