import Ia32Backend.Frames

/-!
Frames under a sequence of requests, each with a reply. Asking for the bytes or the reach of a
block touches the block, and so does opening another block under it; asking for an offset touches
none. A history may be cut anywhere (`replies_append`).
-/
namespace Ia32Backend.Frames

inductive Request where
  | allocate (block : BlockId) (ty : ValueType) (var : VarId)
  | ownBytes (block : BlockId)
  | reach (block : BlockId)
  | openUnder (child parent : BlockId)
  | slotOffset (var : VarId) (block : BlockId) (name : String)
  deriving DecidableEq, Repr

inductive Reply where
  | offset (value : Int)
  | bytes (count : Nat)
  | opened
  | fault (cause : Fault)
  deriving DecidableEq, Repr

/-- Whether a request only asks. -/
def Request.isReading : Request → Bool
  | .allocate _ _ _ => false
  | .openUnder _ _ => false
  | .ownBytes _ => true
  | .reach _ => true
  | .slotOffset _ _ _ => true

def after (fs : Frames) : Request → Frames
  | .allocate block ty var => (fs.allocate block ty var).2
  | .openUnder child parent => (fs.touch parent).openUnder child parent
  | .ownBytes block => fs.touch block
  | .reach block => fs.touch block
  | .slotOffset _ _ _ => fs

def reply (fs : Frames) : Request → Reply
  | .allocate block ty var => .offset (fs.allocate block ty var).1
  | .openUnder _ _ => .opened
  | .ownBytes block => .bytes (fs.ownBytes block)
  | .reach block => .bytes (fs.reach block)
  | .slotOffset var block name =>
      match fs.slotOffset var block name with
      | .ok offset => .offset offset
      | .error cause => .fault cause

/-- The frames after a history. -/
def run (fs : Frames) (history : List Request) : Frames := history.foldl after fs

def replies (fs : Frames) : List Request → List Reply
  | [] => []
  | r :: rest => fs.reply r :: replies (fs.after r) rest

theorem run_append (fs : Frames) (a b : List Request) :
    fs.run (a ++ b) = (fs.run a).run b := by
  simp [run]

theorem replies_append (fs : Frames) (a b : List Request) :
    fs.replies (a ++ b) = fs.replies a ++ (fs.run a).replies b := by
  induction a generalizing fs with
  | nil => rfl
  | cons r rest ih => simp [replies, run, ih]

end Ia32Backend.Frames
