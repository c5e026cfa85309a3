import Ia32Backend.Proofs.Scope

/-!
Frames as stacks of words. Every frame that was filled by requests alone starts at a multiple of
four and holds slots of four bytes, so two variables of one frame lie a word apart. Later requests
move no slot that was handed out.
-/
namespace Ia32Backend

namespace Frame

structure Wordwise (f : Frame) : Prop where
  base : 4 ∣ f.base
  size : ∀ s ∈ f.slots, s.size = 4

theorem wordwise_empty : Wordwise {} := ⟨by simp, by simp⟩

theorem wordwise_push {f : Frame} (words : f.Wordwise) (v : VarId) (ty : ValueType) :
    (f.push v ty).Wordwise := by
  refine ⟨words.base, ?_⟩
  intro s member
  rcases List.mem_cons.mp member with new | old
  · subst s
    rfl
  · exact words.size s old

theorem wordwise_openBelow {f : Frame} (words : f.Wordwise) {depth : Nat} (aligned : 4 ∣ depth) :
    (f.openBelow depth).Wordwise := by
  unfold openBelow
  split
  · have base := words.base
    refine ⟨?_, by simp_all⟩
    simp only [Nat.max_def]
    split <;> assumption
  · exact words

theorem bytes_eq (slots : List Slot) (size : ∀ s ∈ slots, s.size = 4) :
    bytes slots = 4 * slots.length := by
  induction slots with
  | nil => rfl
  | cons s older ih =>
    have first := size s List.mem_cons_self
    have rest := ih fun t member => size t (List.mem_cons_of_mem s member)
    simp only [bytes, List.length_cons]
    omega

theorem reach_aligned {f : Frame} (words : f.Wordwise) : 4 ∣ f.reach := by
  have base := words.base
  simp only [reach, ownBytes, bytes_eq f.slots words.size]
  omega

theorem reach_openBelow_le (f : Frame) (depth : Nat) :
    (f.openBelow depth).reach ≤ max f.reach depth := by
  unfold openBelow
  split
  · rename_i empty
    simp only [reach, ownBytes, empty, bytes]
    omega
  · exact Nat.le_max_left _ _

end Frame

namespace Frames

def Wordwise (fs : Frames) : Prop := ∀ b, (fs.frame b).Wordwise

/-- Slots that were handed out stay where they are. -/
def Extends (fs later : Frames) : Prop :=
  ∀ b v d, (fs.frame b).depth? v = some d → (later.frame b).depth? v = some d

theorem wordwise_empty : Wordwise {} := fun _ => Frame.wordwise_empty

theorem wordwise_set {fs : Frames} (words : fs.Wordwise) {b : BlockId} {f : Frame}
    (new : f.Wordwise) : (fs.set b f).Wordwise := by
  intro c
  rw [frame_set]
  split
  · exact new
  · exact words c

theorem wordwise_touch {fs : Frames} (words : fs.Wordwise) (b : BlockId) :
    (fs.touch b).Wordwise := wordwise_set words (words b)

theorem wordwise_allocate {fs : Frames} (words : fs.Wordwise) (b : BlockId) (ty : ValueType)
    (v : VarId) : (fs.allocate b ty v).2.Wordwise := by
  unfold allocate
  split
  · exact words
  · exact wordwise_set words (Frame.wordwise_push (words b) v ty)

theorem wordwise_openUnder {fs : Frames} (words : fs.Wordwise) (child parent : BlockId) :
    (fs.openUnder child parent).Wordwise :=
  wordwise_set words (Frame.wordwise_openBelow (words child) (Frame.reach_aligned (words parent)))

theorem extends_refl (fs : Frames) : fs.Extends fs := fun _ _ _ found => found

theorem extends_trans {fs mid later : Frames} (first : fs.Extends mid)
    (second : mid.Extends later) : fs.Extends later :=
  fun b v d found => second b v d (first b v d found)

theorem offset?_of_depth? {fs : Frames} {b : BlockId} {v : VarId} {d : Nat}
    (found : (fs.frame b).depth? v = some d) : fs.offset? b v = some (-(d : Int)) := by
  simp [offset?, found]

theorem depth?_eq_none {fs : Frames} {b : BlockId} {v : VarId} (missing : fs.offset? b v = none) :
    (fs.frame b).depth? v = none := by
  cases found : (fs.frame b).depth? v with
  | none => rfl
  | some d => simp [offset?_of_depth? found] at missing

theorem depth?_of_offset? {fs : Frames} {b : BlockId} {v : VarId} {offset : Int}
    (slot : fs.offset? b v = some offset) :
    ∃ d : Nat, (fs.frame b).depth? v = some d ∧ offset = -(d : Int) := by
  cases found : (fs.frame b).depth? v with
  | none => simp [offset?, found] at slot
  | some d =>
    rw [offset?_of_depth? found, Option.some.injEq] at slot
    exact ⟨d, rfl, slot.symm⟩

theorem extends_touch (fs : Frames) (b : BlockId) : fs.Extends (fs.touch b) := by
  intro c v d found
  rwa [frame_touch]

theorem extends_allocate (fs : Frames) (b : BlockId) (ty : ValueType) (v : VarId) :
    fs.Extends (fs.allocate b ty v).2 := by
  intro c w d found
  by_cases other : b = c
  · subst c
    cases old : fs.offset? b v with
    | some offset => rwa [allocate_of_some fs old]
    | none =>
      have different : v ≠ w := by
        intro same
        subst w
        simp [depth?_eq_none old] at found
      rw [frame_allocate_of_none fs old, Frame.depth?_push_of_ne _ different]
      exact found
  · rwa [frame_allocate_of_ne fs other]

theorem extends_openUnder (fs : Frames) (child parent : BlockId) :
    fs.Extends (fs.openUnder child parent) := by
  intro b v d found
  by_cases other : child = b
  · subst b
    rw [frame_openUnder_self]
    unfold Frame.openBelow
    split
    · rename_i empty
      simp [Frame.depth?, empty, Frame.depthIn] at found
    · exact found
  · rwa [frame_openUnder_of_ne fs other]

theorem reach_allocate_le (fs : Frames) (b : BlockId) (ty : ValueType) (v : VarId) :
    (fs.allocate b ty v).2.reach b ≤ fs.reach b + 4 := by
  cases old : fs.offset? b v with
  | some offset =>
    rw [allocate_of_some fs old]
    exact Nat.le_add_right _ _
  | none =>
    simp only [reach, frame_allocate_of_none fs old, Frame.reach_push, ValueType.slotSize]
    omega

theorem reach_openUnder_le (fs : Frames) (child parent : BlockId) :
    (fs.openUnder child parent).reach child ≤ max (fs.reach child) (fs.reach parent) := by
  rw [reach, frame_openUnder_self]
  exact Frame.reach_openBelow_le _ _

/-- Where a variable's slot lies, in the frame of the block that owns it. -/
def depthOf (symbols : SymbolTable) (fs : Frames) (v : VarId) : Option Nat :=
  (symbols.owner? v).bind fun b => (fs.frame b).depth? v

theorem depthOf_eq_some {symbols : SymbolTable} {fs : Frames} {v : VarId} {d : Nat} :
    fs.depthOf symbols v = some d ↔
      ∃ b, symbols.owner? v = some b ∧ (fs.frame b).depth? v = some d := by
  simp [depthOf, Option.bind_eq_some_iff]

theorem depthOf_extends {symbols : SymbolTable} {fs later : Frames} (kept : fs.Extends later)
    {v : VarId} {d : Nat} (found : fs.depthOf symbols v = some d) :
    later.depthOf symbols v = some d := by
  obtain ⟨b, owner, slot⟩ := depthOf_eq_some.mp found
  exact depthOf_eq_some.mpr ⟨b, owner, kept b v d slot⟩

end Frames

end Ia32Backend
