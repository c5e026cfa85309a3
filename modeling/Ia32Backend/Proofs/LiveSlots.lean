import Ia32Backend.Proofs.Accepted
import Ia32Backend.Proofs.FrameWords

/-!
Slots of a function's variables. Where the blocks of a function are its own, variables that are in
scope together lie on different words, all of them inside the reserved bytes. Variables that are
never in scope together may share a word, whichever of them is declared first.
-/
namespace Ia32Backend

namespace Layout

/-- What a layout never takes back. -/
structure Grows (l later : Layout) : Prop where
  slots : l.frames.Extends later.frames
  reserved : l.reserved ≤ later.reserved
  words : l.frames.Wordwise → later.frames.Wordwise

theorem grows_refl (l : Layout) : l.Grows l :=
  ⟨Frames.extends_refl _, Nat.le_refl _, fun words => words⟩

theorem grows_trans {l mid later : Layout} (first : l.Grows mid) (second : mid.Grows later) :
    l.Grows later :=
  ⟨Frames.extends_trans first.slots second.slots, Nat.le_trans first.reserved second.reserved,
    fun words => second.words (first.words words)⟩

theorem grows_reserve (l : Layout) (b : BlockId) : l.Grows (l.reserve b) :=
  ⟨Frames.extends_refl _, Nat.le_max_left _ _, fun words => words⟩

theorem grows_openUnder (l : Layout) (child parent : BlockId) :
    l.Grows (l.openUnder child parent) :=
  ⟨Frames.extends_openUnder _ _ _, Nat.le_refl _,
    fun words => Frames.wordwise_openUnder words child parent⟩

theorem grows_declare {symbols : SymbolTable} {l after : Layout} {v : VarId}
    (ok : l.declare symbols v = .ok after) : l.Grows after := by
  obtain ⟨s, _, rfl⟩ := declare_ok ok
  exact ⟨Frames.extends_allocate _ _ _ _, Nat.le_max_left _ _,
    fun words => Frames.wordwise_allocate words _ _ _⟩

theorem grows_declareAll {symbols : SymbolTable} {l after : Layout} {vars : List VarId}
    (ok : l.declareAll symbols vars = .ok after) : l.Grows after := by
  induction vars generalizing l with
  | nil =>
    cases pure_eq_ok.mp ok
    exact grows_refl _
  | cons v rest ih =>
    obtain ⟨mid, first, later⟩ := declareAll_cons_ok ok
    exact grows_trans (grows_declare first) (ih later)

theorem addStmt_nested {s : Stmt} {id : BlockId} {body : List Stmt} (nests : s.Nests id body)
    (symbols : SymbolTable) (parent : BlockId) (l : Layout) :
    addStmt symbols parent l s = addBody symbols id (l.openUnder id parent) body := by
  cases nests <;> rfl

theorem addStmt_flat {s : Stmt} (flat : s.IsFlat) (symbols : SymbolTable) (parent : BlockId)
    (l : Layout) : addStmt symbols parent l s = .ok l := by
  cases s <;> first | rfl | exact flat.elim

theorem grows_addBody (symbols : SymbolTable) (body : List Stmt) :
    ∀ id l after, addBody symbols id l body = .ok after → l.Grows after := by
  induction body using Stmt.body_induction with
  | nil =>
    intro id l after ok
    cases pure_eq_ok.mp ok
    exact grows_reserve l id
  | cons s rest inner ih =>
    intro id l after ok
    obtain ⟨mid, first, later⟩ := addBody_cons_ok ok
    refine grows_trans ?_ (ih id mid after later)
    rcases s.shape with ⟨vars, rfl⟩ | ⟨child, body, nests⟩ | flat
    · exact grows_declareAll first
    · rw [addStmt_nested nests] at first
      exact grows_trans (grows_openUnder l child id) (inner child body nests _ _ _ first)
    · rw [addStmt_flat flat] at first
      cases first
      exact grows_refl l

/-! Frames that a function has nothing to do with are left alone. -/

theorem frame_declareAll_of_ne {symbols : SymbolTable} {l after : Layout} {vars : List VarId}
    {b : BlockId} (apart : ∀ v ∈ vars, symbols.owner? v ≠ some b)
    (ok : l.declareAll symbols vars = .ok after) : after.frames.frame b = l.frames.frame b := by
  induction vars generalizing l with
  | nil =>
    cases pure_eq_ok.mp ok
    rfl
  | cons v rest ih =>
    obtain ⟨mid, first, later⟩ := declareAll_cons_ok ok
    rw [ih (fun w member => apart w (List.mem_cons_of_mem v member)) later]
    obtain ⟨s, found, rfl⟩ := declare_ok first
    have other : s.block ≠ b := by
      intro same
      exact apart v List.mem_cons_self (by rw [owner_of_variableAt found, same])
    exact Frames.frame_allocate_of_ne _ other _ _

theorem frame_addBody_of_ne (symbols : SymbolTable) (b : BlockId) (body : List Stmt) :
    ∀ id l after, b ∉ Stmt.blockIdsOf body →
      (∀ d ∈ Stmt.declarationsOf id body, symbols.owner? d.2 ≠ some b) →
      addBody symbols id l body = .ok after → after.frames.frame b = l.frames.frame b := by
  induction body using Stmt.body_induction with
  | nil =>
    intro id l after _ _ ok
    cases pure_eq_ok.mp ok
    rfl
  | cons s rest inner ih =>
    intro id l after outside apart ok
    obtain ⟨mid, first, later⟩ := addBody_cons_ok ok
    simp only [Stmt.blockIdsOf, List.mem_append, not_or] at outside
    simp only [Stmt.declarationsOf, List.mem_append] at apart
    rw [ih id mid after outside.2 (fun d member => apart d (Or.inr member)) later]
    rcases s.shape with ⟨vars, rfl⟩ | ⟨child, body, nests⟩ | flat
    · refine frame_declareAll_of_ne (fun v member => ?_) first
      exact apart (id, v) (Or.inl (List.mem_map_of_mem member))
    · rw [addStmt_nested nests] at first
      rw [nests.blockIds, List.mem_cons, not_or] at outside
      rw [inner child body nests child _ _ outside.1.2 (fun d member => apart d (Or.inl (by
        rwa [nests.declarations]))) first]
      exact Frames.frame_openUnder_of_ne _ (Ne.symm outside.1.1) _
    · rw [addStmt_flat flat] at first
      cases first
      rfl

/-! Variables in scope together. -/

/-- Every variable of a scope has a slot of its own, no deeper than a limit. -/
structure Laid (symbols : SymbolTable) (frames : Frames) (limit : Nat) (scope : List VarId) :
    Prop where
  placed : ∀ v ∈ scope, ∃ d, frames.depthOf symbols v = some d ∧ 4 ≤ d ∧ d ≤ limit ∧ 4 ∣ d
  apart : ∀ u ∈ scope, ∀ v ∈ scope, frames.depthOf symbols u = frames.depthOf symbols v → u = v

theorem laid_later {symbols : SymbolTable} {frames later : Frames} {limit deeper : Nat}
    {scope : List VarId} (laid : Laid symbols frames limit scope) (kept : frames.Extends later)
    (room : limit ≤ deeper) : Laid symbols later deeper scope := by
  have same : ∀ v ∈ scope, later.depthOf symbols v = frames.depthOf symbols v := by
    intro v member
    obtain ⟨d, slot, _⟩ := laid.placed v member
    rw [slot, Frames.depthOf_extends kept slot]
  refine ⟨?_, ?_⟩
  · intro v member
    obtain ⟨d, slot, low, high, aligned⟩ := laid.placed v member
    exact ⟨d, Frames.depthOf_extends kept slot, low, Nat.le_trans high room, aligned⟩
  · intro u hu v hv equal
    rw [same u hu, same v hv] at equal
    exact laid.apart u hu v hv equal

theorem laid_subset {symbols : SymbolTable} {frames : Frames} {limit : Nat}
    {scope part : List VarId} (laid : Laid symbols frames limit scope) (subset : part ⊆ scope) :
    Laid symbols frames limit part :=
  ⟨fun v member => laid.placed v (subset member),
    fun u hu v hv => laid.apart u (subset hu) v (subset hv)⟩

/-- The frames at a program point of the block `id`: the scope lies within the block's reach, and
whatever already has a slot in the block's frame is in scope. -/
structure Point (symbols : SymbolTable) (frames : Frames) (id : BlockId) (scope : List VarId) :
    Prop where
  words : frames.Wordwise
  laid : Laid symbols frames (frames.reach id) scope
  covered : ∀ v d, (frames.frame id).depth? v = some d → v ∈ scope

theorem depthOf_owned {symbols : SymbolTable} {frames : Frames} {v : VarId} {b : BlockId}
    (owner : symbols.owner? v = some b) :
    frames.depthOf symbols v = (frames.frame b).depth? v := by
  simp [Frames.depthOf, owner]

theorem point_allocate {symbols : SymbolTable} {frames : Frames} {id : BlockId}
    {scope : List VarId} (point : Point symbols frames id scope) {v : VarId}
    (owner : symbols.owner? v = some id) (ty : ValueType) :
    Point symbols (frames.allocate id ty v).2 id (scope ++ [v]) := by
  have words := Frames.wordwise_allocate point.words id ty v
  cases old : frames.offset? id v with
  | some offset =>
    obtain ⟨d, slot, _⟩ := Frames.depth?_of_offset? old
    have known : v ∈ scope := point.covered v d slot
    have subset : scope ++ [v] ⊆ scope := by
      intro w member
      rcases List.mem_append.mp member with old | new
      · exact old
      · rwa [List.mem_singleton.mp new]
    rw [Frames.allocate_of_some frames old]
    exact ⟨point.words, laid_subset point.laid subset,
      fun w d found => List.mem_append_left _ (point.covered w d found)⟩
  | none =>
    have missing := Frames.depth?_eq_none old
    have frame := Frames.frame_allocate_of_none frames old ty
    have deeper : (frames.allocate id ty v).2.reach id = frames.reach id + 4 := by
      rw [Frames.reach, frame, Frame.reach_push]
      rfl
    have slot : (frames.allocate id ty v).2.depthOf symbols v = some (frames.reach id + 4) := by
      rw [depthOf_owned owner, frame, Frame.depth?_push_self, Frame.reach_push]
      rfl
    have laid := laid_later point.laid (Frames.extends_allocate frames id ty v)
      (Nat.le_refl _)
    have aligned := Frame.reach_aligned (point.words id)
    -- The new slot is deeper than all slots that were in scope before.
    have fresh : ∀ u ∈ scope, (frames.allocate id ty v).2.depthOf symbols u ≠
        (frames.allocate id ty v).2.depthOf symbols v := by
      intro u member equal
      obtain ⟨d, placed, _, high, _⟩ := laid.placed u member
      rw [placed, slot, Option.some.injEq] at equal
      omega
    refine ⟨words, ⟨?_, ?_⟩, ?_⟩
    · intro u member
      rw [deeper]
      rcases List.mem_append.mp member with before | new
      · obtain ⟨d, placed, low, high, fours⟩ := laid.placed u before
        exact ⟨d, placed, low, by omega, fours⟩
      · rw [List.mem_singleton.mp new]
        refine ⟨_, slot, by omega, Nat.le_refl _, ?_⟩
        simp only [Frames.reach] at aligned ⊢
        omega
    · intro u hu w hw equal
      rcases List.mem_append.mp hu with ubefore | unew
      · rcases List.mem_append.mp hw with wbefore | wnew
        · exact laid.apart u ubefore w wbefore equal
        · rw [List.mem_singleton.mp wnew] at equal
          exact (fresh u ubefore equal).elim
      · rcases List.mem_append.mp hw with wbefore | wnew
        · rw [List.mem_singleton.mp unew] at equal
          exact (fresh w wbefore equal.symm).elim
        · rw [List.mem_singleton.mp unew, List.mem_singleton.mp wnew]
    · intro w d found
      by_cases same : v = w
      · simp [same]
      · rw [frame, Frame.depth?_push_of_ne _ same] at found
        exact List.mem_append_left _ (point.covered w d found)

theorem point_declareAll {symbols : SymbolTable} {l after : Layout} {id : BlockId}
    {scope vars : List VarId} (point : Point symbols l.frames id scope)
    (owned : ∀ v ∈ vars, symbols.owner? v = some id)
    (ok : l.declareAll symbols vars = .ok after) :
    Point symbols after.frames id (scope ++ vars) := by
  induction vars generalizing l scope with
  | nil =>
    cases pure_eq_ok.mp ok
    rwa [List.append_nil]
  | cons v rest ih =>
    obtain ⟨mid, first, later⟩ := declareAll_cons_ok ok
    obtain ⟨s, found, rfl⟩ := declare_ok first
    have owner := owned v List.mem_cons_self
    obtain rfl := block_of_owner found owner
    have next := point_allocate point owner s.ty
    have final := ih next (fun w member => owned w (List.mem_cons_of_mem v member)) later
    rwa [List.append_assoc] at final

/-- An empty block, opened at a program point, starts with the same scope. -/
theorem point_openUnder {symbols : SymbolTable} {frames : Frames} {id child : BlockId}
    {scope : List VarId} (point : Point symbols frames id scope)
    (empty : (frames.frame child).slots = []) :
    Point symbols (frames.openUnder child id) child scope := by
  have frame : (frames.openUnder child id).frame child =
      { frames.frame child with base := max (frames.frame child).base (frames.reach id) } := by
    rw [Frames.frame_openUnder_self]
    simp [Frame.openBelow, empty]
  have reach : frames.reach id ≤ (frames.openUnder child id).reach child := by
    rw [Frames.reach.eq_1 (frames.openUnder child id), frame]
    exact Nat.le_trans (Nat.le_max_right _ _) (Nat.le_add_right _ _)
  refine ⟨Frames.wordwise_openUnder point.words child id, ?_, ?_⟩
  · exact laid_later point.laid (Frames.extends_openUnder frames child id) reach
  · intro v d found
    simp [frame, Frame.depth?, empty, Frame.depthIn] at found

theorem point_empty {frames : Frames} (words : frames.Wordwise) (symbols : SymbolTable)
    (id : BlockId) (empty : (frames.frame id).slots = []) : Point symbols frames id [] := by
  refine ⟨words, ⟨by simp, by simp⟩, ?_⟩
  intro v d found
  simp [Frame.depth?, empty, Frame.depthIn] at found

/-- What a body may count on: its nested blocks are distinct, untouched so far, and own what is
declared in them. -/
structure Untouched (symbols : SymbolTable) (frames : Frames) (id : BlockId) (body : List Stmt) :
    Prop where
  distinct : (id :: Stmt.blockIdsOf body).Nodup
  fresh : ∀ b ∈ Stmt.blockIdsOf body, frames.frame b = {}
  owned : ∀ d ∈ Stmt.declarationsOf id body, symbols.owner? d.2 = some d.1

theorem owner_outside {symbols : SymbolTable} {frames : Frames} {id b : BlockId}
    {body : List Stmt} (untouched : Untouched symbols frames id body)
    (outside : b ∉ id :: Stmt.blockIdsOf body) :
    ∀ d ∈ Stmt.declarationsOf id body, symbols.owner? d.2 ≠ some b := by
  intro d member equal
  rw [untouched.owned d member, Option.some.injEq] at equal
  exact outside (equal ▸ declaration_block_mem body id d member)

theorem untouched_inner {symbols : SymbolTable} {frames : Frames} {id child : BlockId}
    {s : Stmt} {body rest : List Stmt} (untouched : Untouched symbols frames id (s :: rest))
    (nests : s.Nests child body) :
    Untouched symbols (frames.openUnder child id) child body := by
  have distinct := untouched.distinct
  have fresh := untouched.fresh
  have owned := untouched.owned
  simp only [Stmt.blockIdsOf, Stmt.declarationsOf, nests.blockIds, nests.declarations]
    at distinct fresh owned
  have inside := (List.nodup_append.mp (List.nodup_cons.mp distinct).2).1
  refine ⟨inside, ?_, fun d member => owned d (List.mem_append_left _ member)⟩
  intro b member
  have other : child ≠ b := by
    intro same
    exact (List.nodup_cons.mp inside).1 (same ▸ member)
  rw [Frames.frame_openUnder_of_ne _ other]
  exact fresh b (by simp [member])

/-- A statement of the block `id` leaves the block's later statements what they count on. -/
theorem untouched_rest {symbols : SymbolTable} {l mid : Layout} {id : BlockId} {s : Stmt}
    {rest : List Stmt} (untouched : Untouched symbols l.frames id (s :: rest))
    (ok : addStmt symbols id l s = .ok mid) : Untouched symbols mid.frames id rest := by
  have distinct := untouched.distinct
  have fresh := untouched.fresh
  have owned := untouched.owned
  simp only [Stmt.blockIdsOf, Stmt.declarationsOf] at distinct fresh owned
  have parts := List.nodup_cons.mp distinct
  have tail := List.nodup_append.mp parts.2
  refine ⟨List.nodup_cons.mpr ⟨fun member => parts.1 (List.mem_append_right _ member), tail.2.1⟩,
    ?_, fun d member => owned d (List.mem_append_right _ member)⟩
  intro b member
  rw [← fresh b (List.mem_append_right _ member)]
  have notId : b ≠ id := by
    intro same
    exact parts.1 (same ▸ List.mem_append_right _ member)
  have notHere : b ∉ s.blockIds := fun here => tail.2.2 b here b member rfl
  rcases s.shape with ⟨vars, rfl⟩ | ⟨child, body, nests⟩ | flat
  · refine frame_declareAll_of_ne (fun v declared equal => ?_) ok
    have owner := owned (id, v) (List.mem_append_left _ (List.mem_map_of_mem declared))
    rw [owner, Option.some.injEq] at equal
    exact notId equal.symm
  · rw [addStmt_nested nests] at ok
    rw [nests.blockIds] at notHere
    have notChild := notHere
    rw [List.mem_cons, not_or] at notChild
    rw [frame_addBody_of_ne symbols b body child _ mid notChild.2
      (owner_outside (untouched_inner untouched nests) notHere) ok]
    exact Frames.frame_openUnder_of_ne _ (Ne.symm notChild.1) _
  · rw [addStmt_flat flat] at ok
    cases ok
    rfl

/-- A nested block works in frames other than that of the block around it. -/
theorem frame_addStmt_nested {symbols : SymbolTable} {l mid : Layout} {id child : BlockId}
    {s : Stmt} {body rest : List Stmt} (nests : s.Nests child body)
    (untouched : Untouched symbols l.frames id (s :: rest))
    (ok : addStmt symbols id l s = .ok mid) : mid.frames.frame id = l.frames.frame id := by
  rw [addStmt_nested nests] at ok
  have distinct := untouched.distinct
  simp only [Stmt.blockIdsOf, nests.blockIds] at distinct
  have outside : id ∉ child :: Stmt.blockIdsOf body := fun member =>
    (List.nodup_cons.mp distinct).1 (List.mem_append_left _ member)
  have notChild := outside
  rw [List.mem_cons, not_or] at notChild
  rw [frame_addBody_of_ne symbols id body child _ mid notChild.2
    (owner_outside (untouched_inner untouched nests) outside) ok]
  exact Frames.frame_openUnder_of_ne _ (Ne.symm notChild.1) _

/-- A statement takes a program point of its block to the next one. -/
theorem point_addStmt {symbols : SymbolTable} {l mid : Layout} {id : BlockId}
    {scope : List VarId} {s : Stmt} {rest : List Stmt}
    (untouched : Untouched symbols l.frames id (s :: rest))
    (point : Point symbols l.frames id scope) (ok : addStmt symbols id l s = .ok mid) :
    Point symbols mid.frames id (scope ++ s.declared) := by
  rcases s.shape with ⟨vars, rfl⟩ | ⟨child, body, nests⟩ | flat
  · refine point_declareAll point (fun v declared => ?_) ok
    exact untouched.owned (id, v) (List.mem_append_left _ (List.mem_map_of_mem declared))
  · have frame := frame_addStmt_nested nests untouched ok
    have reach : mid.frames.reach id = l.frames.reach id := by rw [Frames.reach, frame]; rfl
    rw [addStmt_nested nests] at ok
    have grows := grows_trans (grows_openUnder l child id)
      (grows_addBody symbols body child _ mid ok)
    rw [nests.declared, List.append_nil]
    refine ⟨grows.words point.words, ?_, ?_⟩
    · rw [reach]
      exact laid_later point.laid grows.slots (Nat.le_refl _)
    · rw [frame]
      exact point.covered
  · rw [addStmt_flat flat] at ok
    cases ok
    rwa [flat.declared, List.append_nil]

theorem laid_addBody (symbols : SymbolTable) (body : List Stmt) :
    ∀ id scope l after, Untouched symbols l.frames id body → Point symbols l.frames id scope →
      addBody symbols id l body = .ok after →
      ∀ inside ∈ Stmt.scopesOf scope body, Laid symbols after.frames after.reserved inside := by
  induction body using Stmt.body_induction with
  | nil =>
    intro id scope l after _ point ok inside member
    cases pure_eq_ok.mp ok
    rw [List.mem_singleton.mp member]
    exact laid_later point.laid (Frames.extends_refl _) (Nat.le_max_right _ _)
  | cons s rest inner ih =>
    intro id scope l after untouched point ok inside member
    obtain ⟨mid, first, later⟩ := addBody_cons_ok ok
    have next := point_addStmt untouched point first
    have ahead := ih id _ mid after (untouched_rest untouched first) next later
    simp only [Stmt.scopesOf, List.mem_cons, List.mem_append] at member
    rcases member with here | within | ahead_member
    · subst inside
      exact laid_subset (ahead _ (scope_mem_scopesOf _ rest)) (List.subset_append_left _ _)
    · rcases s.shape with ⟨vars, rfl⟩ | ⟨child, body, nests⟩ | flat
      · simp [Stmt.scopes] at within
      · rw [nests.scopes] at within
        rw [addStmt_nested nests] at first
        have fresh := untouched.fresh child (by simp [Stmt.blockIdsOf, nests.blockIds])
        have laid := inner child body nests child scope _ mid (untouched_inner untouched nests)
          (point_openUnder point (by rw [fresh])) first inside within
        have grows := grows_addBody symbols rest id mid after later
        exact laid_later laid grows.slots grows.reserved
      · simp [flat.scopes] at within
    · exact ahead inside ahead_member

/-! Whole functions. -/

theorem extends_addParams {symbols : SymbolTable} {frames after : Frames} {params : List VarId}
    (ok : addParams symbols frames params = .ok after) :
    frames.Extends after ∧ (frames.Wordwise → after.Wordwise) := by
  induction params generalizing frames with
  | nil =>
    cases pure_eq_ok.mp ok
    exact ⟨Frames.extends_refl _, fun words => words⟩
  | cons v rest ih =>
    obtain ⟨s, _, later⟩ := addParams_cons_ok ok
    obtain ⟨kept, words⟩ := ih later
    exact ⟨Frames.extends_trans (Frames.extends_allocate _ _ _ _) kept,
      fun start => words (Frames.wordwise_allocate start _ _ _)⟩

theorem frame_addParams_of_ne {symbols : SymbolTable} {frames after : Frames}
    {params : List VarId} {b : BlockId} (apart : ∀ v ∈ params, symbols.owner? v ≠ some b)
    (ok : addParams symbols frames params = .ok after) : after.frame b = frames.frame b := by
  induction params generalizing frames with
  | nil =>
    cases pure_eq_ok.mp ok
    rfl
  | cons v rest ih =>
    obtain ⟨s, found, later⟩ := addParams_cons_ok ok
    rw [ih (fun w member => apart w (List.mem_cons_of_mem v member)) later]
    have other : s.block ≠ b := by
      intro same
      exact apart v List.mem_cons_self (by rw [owner_of_variableAt found, same])
    exact Frames.frame_allocate_of_ne _ other _ _

theorem openBelowParams_spec {symbols : SymbolTable} {body : BlockId} {frames after : Frames}
    {params : List VarId} (ok : openBelowParams symbols body frames params = .ok after) :
    frames.Extends after ∧ (frames.Wordwise → after.Wordwise) ∧
      ∀ b, b ≠ body → after.frame b = frames.frame b := by
  induction params generalizing frames with
  | nil =>
    cases pure_eq_ok.mp ok
    exact ⟨Frames.extends_refl _, fun words => words, fun _ _ => rfl⟩
  | cons v rest ih =>
    obtain ⟨s, _, later⟩ := openBelowParams_cons_ok ok
    obtain ⟨kept, words, other⟩ := ih later
    split at kept
    · rename_i same
      simp only [same, ↓reduceIte] at words other
      exact ⟨kept, words, other⟩
    · rename_i different
      simp only [different, ↓reduceIte] at words other
      refine ⟨Frames.extends_trans (Frames.extends_openUnder _ _ _) kept,
        fun start => words (Frames.wordwise_openUnder start _ _), ?_⟩
      intro b notBody
      rw [other b notBody, Frames.frame_openUnder_of_ne _ (Ne.symm notBody)]

theorem point_addParams {symbols : SymbolTable} {frames after : Frames} {id : BlockId}
    {scope params : List VarId} (point : Point symbols frames id scope)
    (owned : ∀ v ∈ params, symbols.owner? v = some id)
    (ok : addParams symbols frames params = .ok after) :
    Point symbols after id (scope ++ params) := by
  induction params generalizing frames scope with
  | nil =>
    cases pure_eq_ok.mp ok
    rwa [List.append_nil]
  | cons v rest ih =>
    obtain ⟨s, found, later⟩ := addParams_cons_ok ok
    have owner := owned v List.mem_cons_self
    obtain rfl := block_of_owner found owner
    have final := ih (point_allocate point owner s.ty)
      (fun w member => owned w (List.mem_cons_of_mem v member)) later
    rwa [List.append_assoc] at final

/-- Parameters in the body's own frame leave the body where it is. -/
theorem openBelowParams_own {symbols : SymbolTable} {body : BlockId} {frames after : Frames}
    {params : List VarId} (owned : ∀ v ∈ params, symbols.owner? v = some body)
    (ok : openBelowParams symbols body frames params = .ok after) : after = frames := by
  induction params with
  | nil =>
    cases pure_eq_ok.mp ok
    rfl
  | cons v rest ih =>
    obtain ⟨s, found, later⟩ := openBelowParams_cons_ok ok
    rw [if_pos (block_of_owner found (owned v List.mem_cons_self))] at later
    exact ih (fun w member => owned w (List.mem_cons_of_mem v member)) later

/-- Parameters in a frame apart push the empty body below them. -/
theorem openBelowParams_apart {symbols : SymbolTable} {body id : BlockId}
    {frames after : Frames} {scope params : List VarId} (apart : id ≠ body)
    (point : Point symbols frames id scope) (empty : (frames.frame body).slots = [])
    (owned : ∀ v ∈ params, symbols.owner? v = some id) (some_param : params ≠ [])
    (ok : openBelowParams symbols body frames params = .ok after) :
    Point symbols after body scope := by
  induction params generalizing frames with
  | nil => exact (some_param rfl).elim
  | cons v rest ih =>
    obtain ⟨s, found, later⟩ := openBelowParams_cons_ok ok
    obtain rfl := block_of_owner found (owned v List.mem_cons_self)
    rw [if_neg apart] at later
    have opened := point_openUnder point empty
    by_cases last : rest = []
    · subst rest
      cases pure_eq_ok.mp later
      exact opened
    · have frame : (frames.openUnder body s.block).frame s.block = frames.frame s.block :=
        Frames.frame_openUnder_of_ne _ (Ne.symm apart) _
      have still : Point symbols (frames.openUnder body s.block) s.block scope := by
        refine ⟨opened.words, ?_, ?_⟩
        · rw [Frames.reach, frame]
          exact laid_later point.laid (Frames.extends_openUnder _ _ _) (Nat.le_refl _)
        · rw [frame]
          exact point.covered
      refine ih still ?_ (fun w member => owned w (List.mem_cons_of_mem v member)) last later
      rw [Frames.frame_openUnder_self]
      simp [Frame.openBelow, empty]

theorem grows_ofFunction {symbols : SymbolTable} {frames : Frames} {f : FunctionDecl}
    {after : Layout} (ok : ofFunction symbols frames f = .ok after) :
    frames.Extends after.frames ∧ (frames.Wordwise → after.frames.Wordwise) := by
  obtain ⟨placed, opened, first, second, third⟩ := ofFunction_ok ok
  obtain ⟨kept, words⟩ := extends_addParams first
  obtain ⟨keptToo, wordsToo, _⟩ := openBelowParams_spec second
  have grows := grows_addBody symbols f.body.body _ _ _ third
  exact ⟨Frames.extends_trans kept (Frames.extends_trans keptToo grows.slots),
    fun start => grows.words (wordsToo (words start))⟩

theorem frame_ofFunction_of_ne {symbols : SymbolTable} {frames : Frames} {f : FunctionDecl}
    {after : Layout} (ok : ofFunction symbols frames f = .ok after) {b : BlockId}
    (unused : b ∉ f.blocksUsed symbols) : after.frames.frame b = frames.frame b := by
  obtain ⟨placed, opened, first, second, third⟩ := ofFunction_ok ok
  simp only [FunctionDecl.blocksUsed, FunctionDecl.blockIds, FunctionDecl.vars,
    List.mem_append, List.mem_cons, not_or, List.mem_filterMap, not_exists, not_and]
    at unused
  obtain ⟨⟨notBody, notNested⟩, notOwner⟩ := unused
  rw [frame_addBody_of_ne symbols b f.body.body _ _ _ notNested
      (fun d member => notOwner d.2 (Or.inr (List.mem_map_of_mem member))) third]
  exact ((openBelowParams_spec second).2.2 b notBody).trans
    (frame_addParams_of_ne (fun v member => notOwner v (Or.inl member)) first)

/-- Frames in which only taken blocks were touched. -/
structure Clean (frames : Frames) (taken : List BlockId) : Prop where
  words : frames.Wordwise
  rest : ∀ b, b ∉ taken → frames.frame b = {}

theorem frame_addParams_other {symbols : SymbolTable} {frames placed : Frames}
    {params : List VarId} {b : BlockId} (owned : ∀ v ∈ params, symbols.owner? v = some b)
    (ok : addParams symbols frames params = .ok placed) {c : BlockId} (other : c ≠ b) :
    placed.frame c = frames.frame c := by
  refine frame_addParams_of_ne (fun v member equal => ?_) ok
  rw [owned v member, Option.some.injEq] at equal
  exact other equal.symm

/-- Once the parameters have their places, the body finds its nested blocks untouched. -/
theorem untouched_body {symbols : SymbolTable} {frames placed opened : Frames}
    {taken : List BlockId} {f : FunctionDecl} (clean : Clean frames taken)
    (tidy : f.Tidy symbols taken) (first : addParams symbols frames f.params = .ok placed)
    (second : openBelowParams symbols f.body.id placed f.params = .ok opened) :
    Untouched symbols opened f.body.id f.body.body := by
  obtain ⟨b, owned, place⟩ := tidy.params
  have distinct := List.nodup_cons.mp tidy.distinct
  have notNested : b ∉ Stmt.blockIdsOf f.body.body := by
    rcases place with same | ⟨outside, _⟩
    · exact same ▸ distinct.1
    · exact fun member => outside (List.mem_cons_of_mem _ member)
  refine ⟨tidy.distinct, ?_, tidy.owned⟩
  intro c member
  have notBody : c ≠ f.body.id := fun same => distinct.1 (same ▸ member)
  have notOwner : c ≠ b := fun same => notNested (same ▸ member)
  rw [(openBelowParams_spec second).2.2 c notBody, frame_addParams_other owned first notOwner]
  exact clean.rest c (tidy.fresh c (List.mem_cons_of_mem _ member))

/-- The parameters of one frame are in scope where the body starts. -/
theorem point_body {symbols : SymbolTable} {frames placed opened : Frames}
    {taken : List BlockId} {f : FunctionDecl} {b : BlockId} (clean : Clean frames taken)
    (freshBody : f.body.id ∉ taken) (freshOwner : b ∉ taken)
    (owned : ∀ v ∈ f.params, symbols.owner? v = some b)
    (first : addParams symbols frames f.params = .ok placed)
    (second : openBelowParams symbols f.body.id placed f.params = .ok opened) :
    Point symbols opened f.body.id f.params := by
  have params : Point symbols placed b f.params := by
    have start := point_empty clean.words symbols b (by rw [clean.rest b freshOwner])
    simpa using point_addParams start owned first
  by_cases own : b = f.body.id
  · subst b
    rwa [openBelowParams_own owned second]
  · have emptyBody : (placed.frame f.body.id).slots = [] := by
      rw [frame_addParams_other owned first (Ne.symm own), clean.rest _ freshBody]
    by_cases none : f.params = []
    · rw [none] at second params ⊢
      cases pure_eq_ok.mp second
      exact point_empty params.words symbols _ emptyBody
    · exact openBelowParams_apart own params emptyBody owned none second

theorem laid_ofFunction {symbols : SymbolTable} {frames : Frames} {taken : List BlockId}
    {f : FunctionDecl} {after : Layout} (clean : Clean frames taken)
    (tidy : f.Tidy symbols taken) (ok : ofFunction symbols frames f = .ok after) :
    ∀ scope ∈ f.scopes, Laid symbols after.frames after.reserved scope := by
  obtain ⟨placed, opened, first, second, third⟩ := ofFunction_ok ok
  obtain ⟨b, owned, freshOwner⟩ := tidy.freshOwner
  have freshBody := tidy.fresh _ List.mem_cons_self
  exact laid_addBody symbols f.body.body f.body.id f.params _ after
    (untouched_body clean tidy first second)
    (point_body clean freshBody freshOwner owned first second) third

/-- The frames that a row of functions leaves behind. -/
def afterAll (symbols : SymbolTable) (frames : Frames) : List FunctionDecl → Except Fault Frames
  | [] => pure frames
  | f :: rest => do afterAll symbols (← ofFunction symbols frames f).frames rest

theorem clean_afterAll {symbols : SymbolTable} {functions : List FunctionDecl} :
    ∀ {frames after taken}, Clean frames taken → afterAll symbols frames functions = .ok after →
      Clean after (taken ++ blocksTaken symbols functions) := by
  induction functions with
  | nil =>
    intro frames after taken clean ok
    cases pure_eq_ok.mp ok
    simpa [blocksTaken] using clean
  | cons f rest ih =>
    intro frames after taken clean ok
    simp only [afterAll, bind_eq_ok] at ok
    obtain ⟨mid, first, later⟩ := ok
    have next : Clean mid.frames (taken ++ f.blocksUsed symbols) := by
      refine ⟨(grows_ofFunction first).2 clean.words, ?_⟩
      intro b outside
      rw [List.mem_append, not_or] at outside
      rw [frame_ofFunction_of_ne first outside.2, clean.rest b outside.1]
    simpa [blocksTaken, List.append_assoc] using ih next later

theorem clean_empty : Clean {} [] := ⟨Frames.wordwise_empty, fun _ _ => rfl⟩

/-- Where a variable lies from the frame pointer. -/
def slotOf (symbols : SymbolTable) (l : Layout) (v : VarId) : Except Fault Int := do
  let s ← symbols.variableAt v
  l.frames.slotOffset v s.block s.name

theorem slotOf_of_depthOf {symbols : SymbolTable} {l : Layout} {v : VarId} {d : Nat}
    (slot : l.frames.depthOf symbols v = some d) : l.slotOf symbols v = .ok (-(d : Int)) := by
  obtain ⟨b, owner, found⟩ := Frames.depthOf_eq_some.mp slot
  obtain ⟨s, symbol, rfl⟩ := variableAt_of_owner owner
  simp [slotOf, symbol, bind, Except.bind, Frames.slotOffset, Frames.offset?_of_depth? found]

/-- Variables in scope together have disjoint slots of four bytes, and every slot of a function is
an aligned word inside its reserved bytes. -/
theorem live_slots_disjoint {symbols : SymbolTable} {earlier : List FunctionDecl}
    {f : FunctionDecl} {frames : Frames} {layout : Layout}
    (before : afterAll symbols {} earlier = .ok frames)
    (tidy : f.Tidy symbols (blocksTaken symbols earlier))
    (laid : ofFunction symbols frames f = .ok layout) :
    (∀ scope ∈ f.scopes, ∀ u ∈ scope, ∀ v ∈ scope, u ≠ v →
      ∃ a b, layout.slotOf symbols u = .ok a ∧ layout.slotOf symbols v = .ok b ∧
        (a + 4 ≤ b ∨ b + 4 ≤ a)) ∧
    (∀ v ∈ f.vars, ∃ a, layout.slotOf symbols v = .ok a ∧
      -(layout.reserved : Int) ≤ a ∧ a + 4 ≤ 0 ∧ 4 ∣ a) := by
  have scopes := laid_ofFunction (clean_afterAll clean_empty before) tidy laid
  constructor
  · intro scope member u hu v hv different
    obtain ⟨du, slotU, _, _, alignedU⟩ := (scopes scope member).placed u hu
    obtain ⟨dv, slotV, _, _, alignedV⟩ := (scopes scope member).placed v hv
    have depths : du ≠ dv := by
      intro same
      exact different ((scopes scope member).apart u hu v hv (by rw [slotU, slotV, same]))
    refine ⟨_, _, slotOf_of_depthOf slotU, slotOf_of_depthOf slotV, ?_⟩
    omega
  · intro v member
    obtain ⟨scope, point, known⟩ := variable_in_scope member
    obtain ⟨d, slot, low, high, aligned⟩ := (scopes scope point).placed v known
    refine ⟨_, slotOf_of_depthOf slot, ?_⟩
    omega

/-- One variable for each block, a parameter in a block apart, a late local of block 1 last. -/
def interleavedSymbols : SymbolTable where
  vars := [⟨"before", .int, ⟨0⟩⟩, ⟨"x", .int, ⟨5⟩⟩, ⟨"a", .char, ⟨1⟩⟩, ⟨"p", .int, ⟨2⟩⟩,
    ⟨"q", .char, ⟨3⟩⟩, ⟨"r", .int, ⟨4⟩⟩, ⟨"late", .int, ⟨1⟩⟩]

def interleavedEarlier : FunctionDecl := ⟨⟨0⟩, [], ⟨⟨0⟩, [.declare [⟨0⟩]]⟩⟩

/-- Nested blocks and declarations take turns, so `late` lies on the bytes of `p`. -/
def interleaved : FunctionDecl :=
  ⟨⟨1⟩, [⟨1⟩], ⟨⟨1⟩, [.declare [⟨2⟩],
    .block ⟨⟨2⟩, [.declare [⟨3⟩], .whileLoop (.ident .char ⟨2⟩) ⟨⟨3⟩, [.declare [⟨4⟩]]⟩]⟩,
    .declare [⟨6⟩], .ifThen (.ident .int ⟨6⟩) ⟨⟨4⟩, [.declare [⟨5⟩]]⟩]⟩⟩

theorem interleaved_tidy :
    interleaved.Tidy interleavedSymbols (blocksTaken interleavedSymbols [interleavedEarlier]) where
  distinct := by decide
  fresh := by decide
  owned := by decide
  params := ⟨⟨5⟩, by decide, by decide⟩

theorem live_slots_disjoint_interleaved :
    ∃ frames layout, afterAll interleavedSymbols {} [interleavedEarlier] = .ok frames ∧
      ofFunction interleavedSymbols frames interleaved = .ok layout ∧ layout.reserved = 16 ∧
      (∃ a b, layout.slotOf interleavedSymbols ⟨4⟩ = .ok a ∧
        layout.slotOf interleavedSymbols ⟨1⟩ = .ok b ∧ (a + 4 ≤ b ∨ b + 4 ≤ a)) ∧
      ∃ a, layout.slotOf interleavedSymbols ⟨6⟩ = .ok a ∧ -(layout.reserved : Int) ≤ a ∧
        a + 4 ≤ 0 ∧ 4 ∣ a := by
  refine ⟨_, _, rfl, rfl, rfl, ?_, ?_⟩
  · exact (live_slots_disjoint rfl interleaved_tidy rfl).1 [⟨1⟩, ⟨2⟩, ⟨3⟩, ⟨4⟩] (by decide) ⟨4⟩
      (by decide) ⟨1⟩ (by decide) (by decide)
  · exact (live_slots_disjoint (f := interleaved) rfl interleaved_tidy rfl).2 ⟨6⟩ (by decide)

end Layout

end Ia32Backend
