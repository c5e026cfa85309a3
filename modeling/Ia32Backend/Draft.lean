import Ia32Backend.Asm.Listing
import Ia32Backend.StringPool

/-!
A listing under way, together with the string pool whose data goes into it. Whatever is asked of a
draft, the lines already written stay as they are (`lines_prefix_after`).
-/
namespace Ia32Backend

structure Draft where
  listing : Listing := {}
  strings : StringPool := {}
  deriving DecidableEq, Repr

namespace Draft

inductive Request where
  | emit (line : String)
  | instr (i : Instr)
  | addLiteral (literal : StringLiteral)
  | addPause (command : String)
  | labelAt (node : NodeId)
  | pauseLabel
  | lines
  | render (separator : String)
  deriving DecidableEq, Repr

inductive Reply where
  | written
  | label (name : String)
  | lines (all : List String)
  | text (all : String)
  | fault (cause : Fault)
  deriving DecidableEq, Repr

def Reply.ofLabel : Except Fault String → Reply
  | .ok name => .label name
  | .error cause => .fault cause

def add (d : Draft) (a : StringPool.Added) : Draft := ⟨d.listing.append a.data, a.pool⟩

def after (d : Draft) : Request → Draft
  | .emit line => { d with listing := d.listing.emit line }
  | .instr i => { d with listing := d.listing.append [i] }
  | .addLiteral literal => d.add (d.strings.addLiteral literal)
  | .addPause command => d.add (d.strings.addPause command)
  | .labelAt _ => d
  | .pauseLabel => d
  | .lines => d
  | .render _ => d

def reply (d : Draft) : Request → Reply
  | .emit _ => .written
  | .instr _ => .written
  | .addLiteral literal => .label (d.strings.addLiteral literal).label
  | .addPause command => .label (d.strings.addPause command).label
  | .labelAt node => .ofLabel (d.strings.labelAt node)
  | .pauseLabel => .ofLabel d.strings.pauseLabel
  | .lines => .lines d.listing.lines
  | .render separator => .text (d.listing.render separator)

/-- The draft after a history of requests. -/
def run (d : Draft) (history : List Request) : Draft := history.foldl after d

def replies (d : Draft) : List Request → List Reply
  | [] => []
  | r :: rest => d.reply r :: replies (d.after r) rest

theorem replies_append (d : Draft) (a b : List Request) :
    d.replies (a ++ b) = d.replies a ++ (d.run a).replies b := by
  induction a generalizing d with
  | nil => rfl
  | cons r rest ih => simp [replies, run, ih]

theorem lines_prefix_after (d : Draft) (r : Request) :
    d.listing.lines <+: (d.after r).listing.lines := by
  cases r <;> simp [after, add, Listing.emit, Listing.append]

end Draft

end Ia32Backend
