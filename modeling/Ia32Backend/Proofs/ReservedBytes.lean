import Mathlib.Data.Finset.Card
import Ia32Backend.Proofs.FirstFault
import Ia32Backend.Proofs.LiveSlots

/-!
What a function reserves is a word for each variable of its widest scope. No scope gets by with
less, since its variables lie on different words. Nor is there more, since a block reaches no deeper
than the variables in scope need, and a nested block starts where the block around it stands.
-/
namespace Ia32Backend

/-- The most distinct variables that are together in one of some scopes. -/
def mostTogether : List (List VarId) → Nat
  | [] => 0
  | scope :: rest => max scope.toFinset.card (mostTogether rest)

theorem mostTogether_append (first second : List (List VarId)) :
    mostTogether (first ++ second) = max (mostTogether first) (mostTogether second) := by
  induction first with
  | nil => simp [mostTogether]
  | cons scope rest ih => simp only [List.cons_append, mostTogether, ih, Nat.max_assoc]

theorem card_le_mostTogether {scope : List VarId} {scopes : List (List VarId)}
    (member : scope ∈ scopes) : scope.toFinset.card ≤ mostTogether scopes := by
  induction scopes with
  | nil => cases member
  | cons first rest ih =>
    simp only [mostTogether]
    rcases List.mem_cons.mp member with rfl | later
    · exact Nat.le_max_left _ _
    · exact Nat.le_trans (ih later) (Nat.le_max_right _ _)

theorem mostTogether_le {scopes : List (List VarId)} {n : Nat}
    (bounded : ∀ scope ∈ scopes, scope.toFinset.card ≤ n) : mostTogether scopes ≤ n := by
  induction scopes with
  | nil => exact Nat.zero_le n
  | cons first rest ih =>
    exact Nat.max_le.mpr ⟨bounded first List.mem_cons_self,
      ih fun scope member => bounded scope (List.mem_cons_of_mem first member)⟩

theorem card_append_le (scope more : List VarId) :
    (scope ++ more).toFinset.card ≤ scope.toFinset.card + more.length := by
  rw [List.toFinset_append]
  exact Nat.le_trans (Finset.card_union_le _ _)
    (Nat.add_le_add_left (List.toFinset_card_le more) _)

theorem card_le_append (scope more : List VarId) :
    scope.toFinset.card ≤ (scope ++ more).toFinset.card := by
  rw [List.toFinset_append]
  exact Finset.card_le_card Finset.subset_union_left

theorem card_le_mostTogether_scopesOf (scope : List VarId) (body : List Stmt) :
    scope.toFinset.card ≤ mostTogether (Stmt.scopesOf scope body) :=
  card_le_mostTogether (scope_mem_scopesOf scope body)

/-- A scope has no more than what was in scope at first and all that is declared. -/
theorem mostTogether_scopesOf_le (body : List Stmt) :
    ∀ id scope, mostTogether (Stmt.scopesOf scope body) ≤
      scope.toFinset.card + (Stmt.declarationsOf id body).length := by
  induction body using Stmt.body_induction with
  | nil => simp [Stmt.scopesOf, Stmt.declarationsOf, mostTogether]
  | cons s rest inner ih =>
    intro id scope
    have ahead := ih id (scope ++ s.declared)
    have more := card_append_le scope s.declared
    simp only [Stmt.scopesOf, Stmt.declarationsOf, List.length_append, mostTogether,
      mostTogether_append]
    rcases s.shape with ⟨vars, rfl⟩ | ⟨child, body, nests⟩ | flat
    · simp only [Stmt.declared, Stmt.scopes, Stmt.declarations, List.length_map,
        mostTogether] at ahead more ⊢
      omega
    · have within := inner child body nests child scope
      simp only [nests.declared, nests.scopes, nests.declarations, List.append_nil] at ahead ⊢
      omega
    · simp only [flat.declared, flat.scopes, flat.declarations, List.append_nil,
        List.length_nil, mostTogether] at ahead ⊢
      omega

/-- The most distinct variables in scope together at a program point of a function. -/
def FunctionDecl.widest (f : FunctionDecl) : Nat := mostTogether f.scopes

theorem FunctionDecl.widest_le_vars (f : FunctionDecl) : f.widest ≤ f.vars.length := by
  have most := mostTogether_scopesOf_le f.body.body f.body.id f.params
  have params := List.toFinset_card_le f.params
  simp only [widest, scopes, vars, declarations, List.length_append, List.length_map]
  omega

namespace Layout

/-- Different words take room. -/
theorem card_le_of_laid {symbols : SymbolTable} {frames : Frames} {limit : Nat}
    {scope : List VarId} (laid : Laid symbols frames limit scope) :
    4 * scope.toFinset.card ≤ limit := by
  -- A slot counts the words above it.
  have words : ∀ v ∈ scope, ∃ n, frames.depthOf symbols v = some (4 * n + 4) ∧ n < limit / 4 := by
    intro v member
    obtain ⟨d, slot, low, high, n, rfl⟩ := laid.placed v member
    exact ⟨n - 1, by rw [slot, Option.some.injEq]; omega, by omega⟩
  have room : scope.toFinset.card ≤ (Finset.range (limit / 4)).card := by
    refine Finset.card_le_card_of_injOn
      (fun v => ((frames.depthOf symbols v).getD 0) / 4 - 1) ?_ ?_
    · intro v member
      obtain ⟨n, slot, few⟩ := words v (List.mem_toFinset.mp member)
      simp only [slot, Option.getD_some, Finset.coe_range, Set.mem_Iio]
      omega
    · intro u hu v hv equal
      obtain ⟨n, slotU, _⟩ := words u (List.mem_toFinset.mp hu)
      obtain ⟨m, slotV, _⟩ := words v (List.mem_toFinset.mp hv)
      simp only [slotU, slotV, Option.getD_some] at equal
      refine laid.apart u (List.mem_toFinset.mp hu) v (List.mem_toFinset.mp hv) ?_
      rw [slotU, slotV, Option.some.injEq]
      omega
  rw [Finset.card_range] at room
  omega

/-- A program point whose block reaches no deeper than the scope needs. -/
structure Snug (symbols : SymbolTable) (frames : Frames) (id : BlockId) (scope : List VarId) :
    Prop extends Point symbols frames id scope where
  reach : frames.reach id ≤ 4 * scope.toFinset.card

theorem snug_allocate {symbols : SymbolTable} {frames : Frames} {id : BlockId}
    {scope : List VarId} (snug : Snug symbols frames id scope) {v : VarId}
    (owner : symbols.owner? v = some id) (ty : ValueType) :
    Snug symbols (frames.allocate id ty v).2 id (scope ++ [v]) := by
  have reach := snug.reach
  refine ⟨point_allocate snug.toPoint owner ty, ?_⟩
  cases old : frames.offset? id v with
  | some offset =>
    rw [Frames.allocate_of_some frames old]
    exact Nat.le_trans reach (Nat.mul_le_mul_left 4 (card_le_append scope [v]))
  | none =>
    have absent : v ∉ scope := by
      intro member
      obtain ⟨d, slot, _⟩ := snug.laid.placed v member
      rw [depthOf_owned owner, Frames.depth?_eq_none old] at slot
      cases slot
    have more : (scope ++ [v]).toFinset.card = scope.toFinset.card + 1 := by
      rw [List.toFinset_append, List.toFinset_cons, List.toFinset_nil, Finset.union_comm]
      exact Finset.card_insert_of_notMem fun member => absent (List.mem_toFinset.mp member)
    have deeper := Frames.reach_allocate_le frames id ty v
    omega

theorem snug_declareAll {symbols : SymbolTable} {id : BlockId} {vars : List VarId} :
    ∀ {l after : Layout} {scope : List VarId}, Snug symbols l.frames id scope →
      (∀ v ∈ vars, symbols.owner? v = some id) → l.declareAll symbols vars = .ok after →
      Snug symbols after.frames id (scope ++ vars) ∧
        after.reserved ≤ max l.reserved (4 * (scope ++ vars).toFinset.card) := by
  induction vars with
  | nil =>
    intro l after scope snug _ ok
    cases pure_eq_ok.mp ok
    exact ⟨by rwa [List.append_nil], Nat.le_max_left _ _⟩
  | cons v rest ih =>
    intro l after scope snug owned ok
    obtain ⟨mid, first, later⟩ := declareAll_cons_ok ok
    obtain ⟨s, found, rfl⟩ := declare_ok first
    have owner := owned v List.mem_cons_self
    obtain rfl := block_of_owner found owner
    have next := snug_allocate snug owner s.ty
    obtain ⟨final, reserved⟩ :=
      ih next (fun w member => owned w (List.mem_cons_of_mem v member)) later
    have here := next.reach
    have grows := card_le_append (scope ++ [v]) rest
    rw [List.append_assoc, List.singleton_append] at final reserved grows
    refine ⟨final, ?_⟩
    simp only [reserve] at reserved
    omega

theorem snug_openUnder {symbols : SymbolTable} {frames : Frames} {id child : BlockId}
    {scope : List VarId} (snug : Snug symbols frames id scope) (fresh : frames.frame child = {}) :
    Snug symbols (frames.openUnder child id) child scope := by
  have opened := Frames.reach_openUnder_le frames child id
  have none : frames.reach child = 0 := by rw [Frames.reach, fresh]; rfl
  have reach := snug.reach
  exact ⟨point_openUnder snug.toPoint (by rw [fresh]), by omega⟩

/-- A body reserves what its widest scope needs, if that was not reserved before. -/
theorem reserved_addBody (symbols : SymbolTable) (body : List Stmt) :
    ∀ id scope l after, Untouched symbols l.frames id body → Snug symbols l.frames id scope →
      addBody symbols id l body = .ok after →
      after.reserved ≤ max l.reserved (4 * mostTogether (Stmt.scopesOf scope body)) := by
  induction body using Stmt.body_induction with
  | nil =>
    intro id scope l after _ snug ok
    cases pure_eq_ok.mp ok
    have reach := snug.reach
    simp only [reserve, Stmt.scopesOf, mostTogether]
    omega
  | cons s rest inner ih =>
    intro id scope l after untouched snug ok
    obtain ⟨mid, first, later⟩ := addBody_cons_ok ok
    have tail := untouched_rest untouched first
    have point := point_addStmt untouched snug.toPoint first
    simp only [Stmt.scopesOf, mostTogether, mostTogether_append]
    rcases s.shape with ⟨vars, rfl⟩ | ⟨child, body, nests⟩ | flat
    · have owned : ∀ v ∈ vars, symbols.owner? v = some id := fun v member =>
        untouched.owned (id, v) (List.mem_append_left _ (List.mem_map_of_mem member))
      obtain ⟨next, reserved⟩ := snug_declareAll snug owned first
      have ahead := ih id (scope ++ vars) mid after tail next later
      have wide := card_le_mostTogether_scopesOf (scope ++ vars) rest
      simp only [Stmt.declared]
      omega
    · have frame := frame_addStmt_nested nests untouched first
      have fresh := untouched.fresh child (by simp [Stmt.blockIdsOf, nests.blockIds])
      have reach : mid.frames.reach id ≤ 4 * scope.toFinset.card := by
        rw [Frames.reach, frame]
        exact snug.reach
      rw [nests.declared, List.append_nil] at point
      rw [nests.declared, nests.scopes, List.append_nil]
      rw [addStmt_nested nests] at first
      have within := inner child body nests child scope _ mid (untouched_inner untouched nests)
        (snug_openUnder snug fresh) first
      have ahead := ih id scope mid after tail ⟨point, reach⟩ later
      simp only [openUnder] at within
      omega
    · rw [addStmt_flat flat] at first
      cases first
      have ahead := ih id scope l after tail snug later
      rw [flat.declared, List.append_nil]
      omega

theorem snug_addParams {symbols : SymbolTable} {b : BlockId} {params : List VarId} :
    ∀ {frames after : Frames} {scope : List VarId}, Snug symbols frames b scope →
      (∀ v ∈ params, symbols.owner? v = some b) → addParams symbols frames params = .ok after →
      Snug symbols after b (scope ++ params) := by
  induction params with
  | nil =>
    intro frames after scope snug _ ok
    cases pure_eq_ok.mp ok
    rwa [List.append_nil]
  | cons v rest ih =>
    intro frames after scope snug owned ok
    obtain ⟨s, found, later⟩ := addParams_cons_ok ok
    have owner := owned v List.mem_cons_self
    obtain rfl := block_of_owner found owner
    have final := ih (snug_allocate snug owner s.ty)
      (fun w member => owned w (List.mem_cons_of_mem v member)) later
    rwa [List.append_assoc] at final

theorem reach_openBelowParams {symbols : SymbolTable} {body b : BlockId} {params : List VarId} :
    ∀ {frames after : Frames}, (∀ v ∈ params, symbols.owner? v = some b) →
      openBelowParams symbols body frames params = .ok after →
      after.reach body ≤ max (frames.reach body) (frames.reach b) := by
  induction params with
  | nil =>
    intro frames after _ ok
    cases pure_eq_ok.mp ok
    exact Nat.le_max_left _ _
  | cons v rest ih =>
    intro frames after owned ok
    obtain ⟨s, found, later⟩ := openBelowParams_cons_ok ok
    have owner := block_of_owner found (owned v List.mem_cons_self)
    have reach := ih (fun w member => owned w (List.mem_cons_of_mem v member)) later
    split at reach
    · exact reach
    · rename_i other
      have opened := Frames.reach_openUnder_le frames body s.block
      have same : (frames.openUnder body s.block).reach s.block = frames.reach s.block := by
        rw [Frames.reach, Frames.frame_openUnder_of_ne _ (Ne.symm other)]
        rfl
      rw [owner] at opened same reach
      omega

theorem reserved_le_widest {symbols : SymbolTable} {frames : Frames} {taken : List BlockId}
    {f : FunctionDecl} {after : Layout} (clean : Clean frames taken)
    (tidy : f.Tidy symbols taken) (ok : ofFunction symbols frames f = .ok after) :
    after.reserved ≤ 4 * f.widest := by
  obtain ⟨placed, opened, first, second, third⟩ := ofFunction_ok ok
  obtain ⟨b, owned, freshOwner⟩ := tidy.freshOwner
  have freshBody := tidy.fresh _ List.mem_cons_self
  have empty : ∀ c ∉ taken, frames.frame c = {} := clean.rest
  have start : Snug symbols frames b [] :=
    ⟨point_empty clean.words symbols b (by rw [empty b freshOwner]), by
      rw [Frames.reach, empty b freshOwner]
      exact Nat.zero_le _⟩
  have params : placed.reach b ≤ 4 * f.params.toFinset.card :=
    (snug_addParams start owned first).reach
  have body : placed.reach f.body.id ≤ 4 * f.params.toFinset.card := by
    by_cases own : f.body.id = b
    · rwa [own]
    · rw [Frames.reach, frame_addParams_other owned first own, empty _ freshBody]
      exact Nat.zero_le _
  have below := reach_openBelowParams owned second
  have inside : Snug symbols opened f.body.id f.params :=
    ⟨point_body clean freshBody freshOwner owned first second, by omega⟩
  have reserved := reserved_addBody symbols f.body.body f.body.id f.params
    ⟨opened, opened.reach f.body.id⟩ after (untouched_body clean tidy first second) inside third
  have wide := card_le_mostTogether_scopesOf f.params f.body.body
  have reach := inside.reach
  simp only [FunctionDecl.widest, FunctionDecl.scopes] at reserved ⊢
  omega

theorem reserved_ofFunction {symbols : SymbolTable} {frames : Frames} {taken : List BlockId}
    {f : FunctionDecl} {after : Layout} (clean : Clean frames taken)
    (tidy : f.Tidy symbols taken) (ok : ofFunction symbols frames f = .ok after) :
    after.reserved ≤ 4 * f.vars.length :=
  Nat.le_trans (reserved_le_widest clean tidy ok) (Nat.mul_le_mul_left 4 f.widest_le_vars)

/-- A tidy function is laid out whatever came before it. -/
theorem laid_of_tidy {symbols : SymbolTable} {frames : Frames} {taken : List BlockId}
    {declared : List VarId} {f : FunctionDecl} (holds : frames.Holds symbols declared)
    (tidy : f.Tidy symbols taken) : ∃ layout, ofFunction symbols frames f = .ok layout := by
  refine (guarded_ok (fills_ofFunction holds f).guarded).mpr (firstFault_eq_none.mpr ?_)
  intro check member
  obtain ⟨v, known, rfl⟩ := List.mem_map.mp member
  have owner : ∃ b, symbols.owner? v = some b := by
    rcases List.mem_append.mp known with param | declared
    · obtain ⟨b, owned, _⟩ := tidy.params
      exact ⟨b, owned v param⟩
    · obtain ⟨d, inside, rfl⟩ := List.mem_map.mp declared
      exact ⟨d.1, tidy.owned d inside⟩
  obtain ⟨b, owner⟩ := owner
  obtain ⟨s, found, _⟩ := variableAt_of_owner owner
  exact Check.fault_variable.mpr ⟨s, found⟩

theorem holds_afterAll {symbols : SymbolTable} {functions : List FunctionDecl} :
    ∀ {frames after declared}, frames.Holds symbols declared →
      afterAll symbols frames functions = .ok after → ∃ more, after.Holds symbols more := by
  induction functions with
  | nil =>
    intro frames after declared holds ok
    cases pure_eq_ok.mp ok
    exact ⟨declared, holds⟩
  | cons f rest ih =>
    intro frames after declared holds ok
    simp only [afterAll, bind_eq_ok] at ok
    obtain ⟨mid, first, later⟩ := ok
    exact ih ((fills_ofFunction holds f).holds mid first) later

/-- A function gets a layout, and reserves a word for each variable of its widest scope. -/
theorem reserves_widest_scope {symbols : SymbolTable} {earlier : List FunctionDecl}
    {f : FunctionDecl} {frames : Frames} (before : afterAll symbols {} earlier = .ok frames)
    (tidy : f.Tidy symbols (blocksTaken symbols earlier)) :
    ∃ layout, ofFunction symbols frames f = .ok layout ∧ layout.reserved = 4 * f.widest := by
  have clean := clean_afterAll clean_empty before
  obtain ⟨declared, holds⟩ := holds_afterAll (Frames.holds_empty symbols) before
  obtain ⟨layout, laid⟩ := laid_of_tidy holds tidy
  refine ⟨layout, laid, Nat.le_antisymm (reserved_le_widest clean tidy laid) ?_⟩
  have room : f.widest ≤ layout.reserved / 4 := by
    refine mostTogether_le fun scope member => ?_
    have words := card_le_of_laid (laid_ofFunction clean tidy laid scope member)
    omega
  omega

/-- A `while` block stands three blocks deep in the scope of four variables; the word of `p` is free
again when `late` is declared. -/
theorem reserves_widest_scope_interleaved :
    ∃ frames layout, afterAll interleavedSymbols {} [interleavedEarlier] = .ok frames ∧
      ofFunction interleavedSymbols frames interleaved = .ok layout ∧
      interleaved.widest = 4 ∧ layout.reserved = 4 * interleaved.widest := by
  obtain ⟨frames, before⟩ : ∃ frames,
    afterAll interleavedSymbols {} [interleavedEarlier] = .ok frames := ⟨_, rfl⟩
  obtain ⟨layout, laid, reserved⟩ := reserves_widest_scope before interleaved_tidy
  exact ⟨frames, layout, before, laid, by decide, reserved⟩

end Layout

end Ia32Backend
