import Ia32Backend.Frames.History

/-!
Frames in signed 32-bit numbers, as a machine keeps them: the base, the bytes in use and every
offset. Each sum and each negation is checked, and a request whose arithmetic leaves the range has
no result. Which blocks have been touched plays no part in the arithmetic.
-/
namespace Ia32Backend

/-- The signed 32-bit number of a value, if it has one. -/
def signed? (value : Int) : Option Int32 :=
  if Int32.minValue.toInt ≤ value ∧ value ≤ Int32.maxValue.toInt then some (Int32.ofInt value)
  else none

theorem signed?_eq_some {value : Int} {n : Int32} : signed? value = some n ↔ n.toInt = value := by
  have low := n.minValue_le_toInt
  have high := n.toInt_le
  unfold signed?
  split
  · rename_i inside
    rw [Int32.toInt_minValue, Int32.toInt_maxValue] at inside
    have exactly := Int32.toInt_ofInt_of_le (n := value) (by omega) (by omega)
    rw [Option.some.injEq, ← Int32.toInt_inj, exactly, eq_comm]
  · rename_i outside
    constructor
    · intro impossible
      cases impossible
    · intro same
      subst value
      exact absurd ⟨low, high⟩ outside

structure CheckedFrame where
  base : Int32 := 0
  ownBytes : Int32 := 0
  /-- Newest first. -/
  offsets : List (VarId × Int32) := []
  deriving DecidableEq, Repr

namespace CheckedFrame

def reach? (f : CheckedFrame) : Option Int32 := signed? (f.base.toInt + f.ownBytes.toInt)

/-- A new slot: the bytes in use grow, and the offset is the reach negated. -/
def push? (f : CheckedFrame) (v : VarId) (ty : ValueType) : Option (Int32 × CheckedFrame) := do
  let ownBytes ← signed? (f.ownBytes.toInt + ty.slotSize)
  let reach ← reach? { f with ownBytes }
  let offset ← signed? (-reach.toInt)
  some (offset, { f with ownBytes, offsets := (v, offset) :: f.offsets })

def openBelow (f : CheckedFrame) (depth : Int32) : CheckedFrame :=
  match f.offsets with
  | [] => { f with base := if f.base ≤ depth then depth else f.base }
  | _ :: _ => f

end CheckedFrame

structure CheckedFrames where
  frame : BlockId → CheckedFrame := fun _ => {}

namespace CheckedFrames

inductive Reply where
  | offset (value : Int32)
  | bytes (count : Int32)
  | opened
  | fault (cause : Fault)
  deriving DecidableEq, Repr

def set (fs : CheckedFrames) (b : BlockId) (f : CheckedFrame) : CheckedFrames :=
  ⟨fun c => if b = c then f else fs.frame c⟩

/-- The reply to a request and the frames after it, if all arithmetic stays in range. -/
def step? (fs : CheckedFrames) : Frames.Request → Option (Reply × CheckedFrames)
  | .allocate block ty var =>
      match (fs.frame block).offsets.lookup var with
      | some offset => some (.offset offset, fs)
      | none => do
          let (offset, f) ← (fs.frame block).push? var ty
          some (.offset offset, fs.set block f)
  | .ownBytes block => some (.bytes (fs.frame block).ownBytes, fs)
  | .reach block => do
      let reach ← (fs.frame block).reach?
      some (.bytes reach, fs)
  | .openUnder child parent => do
      let depth ← (fs.frame parent).reach?
      some (.opened, fs.set child ((fs.frame child).openBelow depth))
  | .slotOffset var block name =>
      match (fs.frame block).offsets.lookup var with
      | some offset => some (.offset offset, fs)
      | none => some (.fault (.noSlot var name), fs)

/-- The replies to a history and the frames after it, if all arithmetic stays in range. -/
def run? (fs : CheckedFrames) : List Frames.Request → Option (List Reply × CheckedFrames)
  | [] => some ([], fs)
  | r :: rest => do
      let (answer, later) ← fs.step? r
      let (answers, last) ← run? later rest
      some (answer :: answers, last)

theorem frame_set (fs : CheckedFrames) (b c : BlockId) (f : CheckedFrame) :
    (fs.set b f).frame c = if b = c then f else fs.frame c := rfl

end CheckedFrames

end Ia32Backend
