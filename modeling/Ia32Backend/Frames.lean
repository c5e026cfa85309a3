import Ia32Backend.Fault
import Ia32Backend.ValueType

/-!
Stack slots below the frame pointer, one frame for each lexical block. A frame starts at its base,
the bytes that enclosing blocks had claimed when the block was opened, and grows downwards by one
slot for each new variable. A block that was never touched has an empty frame at base zero, and
touching it enters that frame (`frame_touch`). Distances are unbounded; the 32-bit limit lies
outside.
-/
namespace Ia32Backend

structure Slot where
  var : VarId
  size : Nat
  deriving DecidableEq, Repr

structure Frame where
  base : Nat := 0
  /-- Newest first. -/
  slots : List Slot := []
  deriving DecidableEq, Repr

namespace Frame

def bytes : List Slot → Nat
  | [] => 0
  | s :: older => s.size + bytes older

/-- Bytes of the slots in the frame itself. -/
def ownBytes (f : Frame) : Nat := bytes f.slots

/-- Distance of the lowest byte in use from the frame pointer. -/
def reach (f : Frame) : Nat := f.base + f.ownBytes

def depthIn (base : Nat) (v : VarId) : List Slot → Option Nat
  | [] => none
  | s :: older => if s.var = v then some (base + bytes (s :: older)) else depthIn base v older

/-- Distance of the lowest byte of a slot from the frame pointer. -/
def depth? (f : Frame) (v : VarId) : Option Nat := depthIn f.base v f.slots

def push (f : Frame) (v : VarId) (ty : ValueType) : Frame :=
  { f with slots := ⟨v, ty.slotSize⟩ :: f.slots }

/-- An empty frame moves down to a new base, and never up again. A frame with slots stays. -/
def openBelow (f : Frame) (depth : Nat) : Frame :=
  match f.slots with
  | [] => { f with base := max f.base depth }
  | _ :: _ => f

theorem reach_push (f : Frame) (v : VarId) (ty : ValueType) :
    (f.push v ty).reach = f.reach + ty.slotSize := by
  simp only [push, reach, ownBytes, bytes]
  omega

theorem depth?_push_self (f : Frame) (v : VarId) (ty : ValueType) :
    (f.push v ty).depth? v = some (f.push v ty).reach := by
  simp [push, depth?, depthIn, reach, ownBytes]

theorem depth?_push_of_ne (f : Frame) {v w : VarId} (h : v ≠ w) (ty : ValueType) :
    (f.push v ty).depth? w = f.depth? w := by
  simp [push, depth?, depthIn, h]

theorem le_reach_openBelow (f : Frame) (depth : Nat) : f.reach ≤ (f.openBelow depth).reach := by
  unfold openBelow
  split
  · simp only [reach, ownBytes]
    omega
  · exact Nat.le_refl _

end Frame

structure Frames where
  blocks : List (BlockId × Frame) := []
  deriving DecidableEq, Repr

namespace Frames

def frameIn (b : BlockId) : List (BlockId × Frame) → Frame
  | [] => {}
  | (k, f) :: rest => if k = b then f else frameIn b rest

def setIn (b : BlockId) (f : Frame) : List (BlockId × Frame) → List (BlockId × Frame)
  | [] => [(b, f)]
  | (k, g) :: rest => if k = b then (b, f) :: rest else (k, g) :: setIn b f rest

/-- The frame of a block. -/
def frame (fs : Frames) (b : BlockId) : Frame := frameIn b fs.blocks

def set (fs : Frames) (b : BlockId) (f : Frame) : Frames := ⟨setIn b f fs.blocks⟩

/-- Looking at a block enters an empty frame for it where it has none. -/
def touch (fs : Frames) (b : BlockId) : Frames := fs.set b (fs.frame b)

theorem frameIn_setIn (b c : BlockId) (f : Frame) (blocks : List (BlockId × Frame)) :
    frameIn c (setIn b f blocks) = if b = c then f else frameIn c blocks := by
  induction blocks with
  | nil => simp [setIn, frameIn]
  | cons entry rest ih =>
    obtain ⟨k, g⟩ := entry
    by_cases hk : k = b
    · subst hk
      by_cases hc : k = c <;> simp [setIn, frameIn, hc]
    · by_cases hc : k = c
      · subst hc
        simp [setIn, frameIn, hk, Ne.symm hk]
      · simp [setIn, frameIn, hk, hc, ih]

theorem frame_set (fs : Frames) (b c : BlockId) (f : Frame) :
    (fs.set b f).frame c = if b = c then f else fs.frame c :=
  frameIn_setIn b c f fs.blocks

theorem frame_touch (fs : Frames) (b c : BlockId) : (fs.touch b).frame c = fs.frame c := by
  rw [touch, frame_set]
  split
  · rename_i same
    rw [same]
  · rfl

def ownBytes (fs : Frames) (b : BlockId) : Nat := (fs.frame b).ownBytes

def reach (fs : Frames) (b : BlockId) : Nat := (fs.frame b).reach

/-- Where a slot lies relative to the frame pointer. -/
def offset? (fs : Frames) (b : BlockId) (v : VarId) : Option Int :=
  ((fs.frame b).depth? v).map fun d => -(d : Int)

def slotOffset (fs : Frames) (v : VarId) (b : BlockId) (name : String) : Except Fault Int :=
  match fs.offset? b v with
  | some offset => .ok offset
  | none => .error (.noSlot v name)

/-- The offset of a variable's slot. A variable that has one in the block keeps it, whatever type
is asked for. -/
def allocate (fs : Frames) (b : BlockId) (ty : ValueType) (v : VarId) : Int × Frames :=
  match fs.offset? b v with
  | some offset => (offset, fs)
  | none =>
      let f := (fs.frame b).push v ty
      (-(f.reach : Int), fs.set b f)

/-- Opens a block below everything its parent holds so far. -/
def openUnder (fs : Frames) (child parent : BlockId) : Frames :=
  fs.set child ((fs.frame child).openBelow (fs.reach parent))

theorem offset?_allocate_self (fs : Frames) (b : BlockId) (ty : ValueType) (v : VarId) :
    (fs.allocate b ty v).2.offset? b v = some (fs.allocate b ty v).1 := by
  unfold allocate
  split
  · assumption
  · simp [offset?, frame_set, Frame.depth?_push_self]

theorem frame_allocate_of_ne (fs : Frames) {b c : BlockId} (h : b ≠ c) (ty : ValueType)
    (v : VarId) : (fs.allocate b ty v).2.frame c = fs.frame c := by
  unfold allocate
  split
  · rfl
  · simp [frame_set, h]

theorem allocate_of_some (fs : Frames) {b : BlockId} {v : VarId} {offset : Int}
    (h : fs.offset? b v = some offset) (ty : ValueType) :
    fs.allocate b ty v = (offset, fs) := by
  simp [allocate, h]

theorem frame_allocate_of_none (fs : Frames) {b : BlockId} {v : VarId}
    (h : fs.offset? b v = none) (ty : ValueType) :
    (fs.allocate b ty v).2.frame b = (fs.frame b).push v ty := by
  simp [allocate, h, frame_set]

theorem frame_openUnder_self (fs : Frames) (child parent : BlockId) :
    (fs.openUnder child parent).frame child =
      (fs.frame child).openBelow (fs.reach parent) := by
  simp [openUnder, frame_set]

theorem frame_openUnder_of_ne (fs : Frames) {child b : BlockId} (h : child ≠ b)
    (parent : BlockId) : (fs.openUnder child parent).frame b = fs.frame b := by
  simp [openUnder, frame_set, h]

end Frames

end Ia32Backend
