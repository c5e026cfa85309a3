import Ia32Backend.Proofs.FrameHistory

/-!
Blocks that were opened under others. While a block has no slot, each opening lowers its base to
what the parent reaches at that moment, if that is deeper; later openings leave it. So the base is
the deepest of those reaches, in whatever order the openings came, and every slot of the block lies
below every slot that a parent had when the block was opened under it.
-/
namespace Ia32Backend

namespace Frames

/-- How deep the parent reaches, where a request opens a block that has no slot. -/
def opened (fs : Frames) (child : BlockId) : Request → List Nat
  | .openUnder c parent =>
      if c = child ∧ (fs.frame child).vars = [] then [fs.reach parent] else []
  | _ => []

/-- How deep the parents reach under which a block is opened while it has no slot, each at the
moment of the opening. -/
def openings (fs : Frames) (child : BlockId) : List Request → List Nat
  | [] => []
  | r :: rest => fs.opened child r ++ openings (fs.after r) child rest

def deepest (depths : List Nat) : Nat := depths.foldl max 0

theorem deepest_perm {depths other : List Nat} (perm : depths.Perm other) :
    deepest depths = deepest other := by
  unfold deepest
  apply perm.foldl_eq'
  intro x _ y _ z
  rw [Nat.max_assoc, Nat.max_assoc, Nat.max_comm x y]

end Frames

namespace Frame

theorem base_openBelow_of_empty {f : Frame} (empty : f.vars = []) (depth : Nat) :
    (f.openBelow depth).base = max f.base depth := by
  have slots : f.slots = [] := by simpa [vars] using empty
  simp [openBelow, slots]

end Frame

namespace Frames

/-- One request moves the base of a block only where it opens the block without a slot. -/
theorem base_after_eq (fs : Frames) (child : BlockId) (r : Request) :
    ((fs.after r).frame child).base = (fs.opened child r).foldl max (fs.frame child).base := by
  cases r with
  | allocate b ty v =>
    simp only [after, opened, List.foldl_nil]
    by_cases same : b = child
    · subst b
      cases old : fs.offset? child v with
      | some offset => rw [allocate_of_some fs old]
      | none =>
        rw [frame_allocate_of_none fs old]
        rfl
    · rw [frame_allocate_of_ne fs same]
  | openUnder c parent =>
    simp only [after, opened]
    by_cases same : c = child
    · subst c
      rw [frame_openUnder_self, Frames.reach, frame_touch, frame_touch]
      by_cases empty : (fs.frame child).vars = []
      · simp [empty, Frame.base_openBelow_of_empty empty, Frames.reach]
      · simp [empty, Frame.base_openBelow empty]
    · simp [same, frame_openUnder_of_ne _ same, frame_touch]
  | ownBytes b => simp [after, opened, frame_touch]
  | reach b => simp [after, opened, frame_touch]
  | slotOffset v b name => rfl

theorem base_run_eq (fs : Frames) (child : BlockId) (history : List Request) :
    ((fs.run history).frame child).base =
      (fs.openings child history).foldl max (fs.frame child).base := by
  induction history generalizing fs with
  | nil => rfl
  | cons r rest ih =>
    have first := base_after_eq fs child r
    rw [openings, List.foldl_append, ← first]
    exact ih (fs.after r)

theorem base_le_run (fs : Frames) (child : BlockId) (history : List Request) :
    (fs.frame child).base ≤ ((fs.run history).frame child).base := by
  rw [base_run_eq, List.foldl_max]
  exact Nat.le_max_left _ _

/-- An opening without a slot binds the block for good. -/
theorem reach_le_base {before : List Request} {child : BlockId}
    (empty : placedIn child before = []) (parent : BlockId) (between : List Request) :
    (run {} before).reach parent ≤
      ((run {} (before ++ .openUnder child parent :: between)).frame child).base := by
  have bare : ((run {} before).frame child).vars = [] := by
    rw [(represents_run before).vars]
    exact empty
  have opening := base_after_eq (run {} before) child (.openUnder child parent)
  have later := base_le_run ((run {} before).after (.openUnder child parent)) child between
  rw [run_append]
  simp only [opened, bare, and_self, if_true, List.foldl_cons, List.foldl_nil] at opening
  have deeper := Nat.le_max_right ((run {} before).frame child).base ((run {} before).reach parent)
  exact Nat.le_trans (opening ▸ deeper) later

/-- No slot of a block lies below what the block reaches. -/
theorem slotOffset_ge {history : List Request} {b : BlockId} {v : VarId} {name : String}
    {offset : Int} (found : (run {} history).slotOffset v b name = .ok offset) :
    -((run {} history).reach b : Int) ≤ offset := by
  obtain ⟨i, position, value⟩ := position_of_slotOffset found
  have reach := reach_run history b
  have inside := (List.getElem?_eq_some_iff.mp position).1
  simp only [placedIn] at reach inside
  omega

/-- Whatever is allocated lies a word or more below the base. -/
theorem allocate_below (history : List Request) (b : BlockId) (ty : ValueType) (v : VarId) :
    ((run {} history).allocate b ty v).1 + 4 ≤ -(((run {} history).frame b).base : Int) := by
  have base := base_le_run (run {} history) b [.allocate b ty v]
  have slot := offset?_kept history b ty v []
  rw [← run_append] at base
  have placing := represents_run (history ++ [.allocate b ty v])
  obtain ⟨i, _, value⟩ := position_of_offset? placing (nodup_placed _) slot
  omega

theorem slotOffset_deepest {history : List Request} {child : BlockId} {i : Nat} {v : VarId}
    (position : (placedIn child history)[i]? = some v) (name : String) :
    (run {} history).slotOffset v child name =
      .ok (-((deepest (openings {} child history) + 4 * (i + 1) : Nat) : Int)) := by
  have base : ((run {} history).frame child).base = deepest (openings {} child history) :=
    base_run_eq {} child history
  rw [slotOffset_run position, base]

theorem slotOffset_missing {history : List Request} {b : BlockId} {v : VarId}
    (unknown : v ∉ placedIn b history) (name : String) :
    (run {} history).slotOffset v b name = .error (.noSlot v name) := by
  apply slotOffset_of_none
  exact (offset?_eq_none (represents_run history)).mpr (mt mem_inBlock.mpr unknown)

/-- The order of the openings plays no part. -/
theorem slotOffset_any_order {history other : List Request} {child : BlockId}
    (perm : (openings {} child history).Perm (openings {} child other))
    (same : placedIn child history = placedIn child other) (v : VarId) (name : String) :
    (run {} history).slotOffset v child name = (run {} other).slotOffset v child name := by
  by_cases known : v ∈ placedIn child history
  · obtain ⟨i, position⟩ := List.mem_iff_getElem?.mp known
    have there : (placedIn child other)[i]? = some v := by rw [← same, position]
    rw [slotOffset_deepest position, slotOffset_deepest there, deepest_perm perm]
  · have missing : v ∉ placedIn child other := by rwa [← same]
    rw [slotOffset_missing known, slotOffset_missing missing]

/-- Every slot that a block is given after it was opened without one lies below every slot that
the parent had at the opening, whatever comes between. Exactly: the slots follow the deepest reach
of all parents under which the block was opened without a slot, in any order. -/
theorem nested_below_parents (child : BlockId) :
    (∀ parent before between, placedIn child before = [] → ∀ ty v, ∃ offset,
      (run {} (before ++ .openUnder child parent :: between)).reply (.allocate child ty v) =
        .offset offset ∧
      ∀ w name above, (run {} before).slotOffset w parent name = .ok above → offset + 4 ≤ above) ∧
    (∀ history i v, (placedIn child history)[i]? = some v → ∀ name,
      (run {} history).slotOffset v child name =
        .ok (-((deepest (openings {} child history) + 4 * (i + 1) : Nat) : Int))) ∧
    (∀ history other, (openings {} child history).Perm (openings {} child other) →
      placedIn child history = placedIn child other → ∀ v name,
      (run {} history).slotOffset v child name = (run {} other).slotOffset v child name) := by
  refine ⟨?_, fun history i v => slotOffset_deepest, fun history other => slotOffset_any_order⟩
  intro parent before between empty ty v
  refine ⟨_, rfl, ?_⟩
  intro w name above found
  have below := allocate_below (before ++ .openUnder child parent :: between) child ty v
  have base := reach_le_base empty parent between
  have reach := slotOffset_ge found
  omega

/-- Two blocks with slots, one of them deeper than the other. -/
def twoParents : List Request :=
  [.allocate ⟨0⟩ .int ⟨0⟩, .allocate ⟨1⟩ .int ⟨1⟩, .allocate ⟨1⟩ .char ⟨2⟩]

/-- Block 2 opened under some parents one after the other and then given a slot. -/
def openedUnder (parents : List BlockId) : List Request :=
  twoParents ++ parents.map (.openUnder ⟨2⟩) ++ [.allocate ⟨2⟩ .int ⟨4⟩]

/-- The block goes below the deeper parent, whether it is opened under that parent first or last,
and what the parent is given later does not move it. -/
theorem nested_below_two_parents :
    (∃ offset,
      (run {} (twoParents ++ .openUnder ⟨2⟩ ⟨1⟩ ::
        [.openUnder ⟨2⟩ ⟨0⟩, .allocate ⟨1⟩ .int ⟨3⟩, .reach ⟨2⟩])).reply
          (.allocate ⟨2⟩ .int ⟨4⟩) = .offset offset ∧ offset + 4 ≤ -8) ∧
    (run {} (openedUnder [⟨0⟩, ⟨1⟩])).slotOffset ⟨4⟩ ⟨2⟩ "z" = .ok (-12) ∧
    (run {} (openedUnder [⟨1⟩, ⟨0⟩])).slotOffset ⟨4⟩ ⟨2⟩ "z" = .ok (-12) := by
  obtain ⟨below, exactly, anyOrder⟩ := nested_below_parents ⟨2⟩
  have deeperLast := exactly (openedUnder [⟨0⟩, ⟨1⟩]) 0 ⟨4⟩ (by decide) "z"
  have swapped := anyOrder (openedUnder [⟨1⟩, ⟨0⟩]) (openedUnder [⟨0⟩, ⟨1⟩])
    (List.Perm.swap 4 8 []) (by decide) ⟨4⟩ "z"
  refine ⟨?_, deeperLast, swapped.trans deeperLast⟩
  obtain ⟨offset, given, lower⟩ := below ⟨1⟩ twoParents
    [.openUnder ⟨2⟩ ⟨0⟩, .allocate ⟨1⟩ .int ⟨3⟩, .reach ⟨2⟩] (by decide) .int ⟨4⟩
  exact ⟨offset, given, lower ⟨2⟩ "y" (-8) (by decide)⟩

end Frames

end Ia32Backend
