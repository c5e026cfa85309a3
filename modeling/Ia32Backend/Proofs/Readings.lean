import Ia32Backend.Frames.History
import Ia32Backend.Proofs.TouchedBlocks

/-!
Requests that only ask. They may enter empty frames, as an opening may for its parent, but no
reply tells whether a frame without slots and at base zero has been entered. So such requests can
be put into a history or left out of it anywhere, and every other request is answered as before.
-/
namespace Ia32Backend

namespace Frames

/-- Frames that differ at most in which empty frames have been entered. -/
def Agree (fs gs : Frames) : Prop := ∀ b, fs.frame b = gs.frame b

section
variable {fs gs : Frames}

theorem agree_symm (agree : Agree fs gs) : Agree gs fs := fun b => (agree b).symm

theorem sameOn_of_agree (agree : Agree fs gs) (blocks : List BlockId) : SameOn blocks fs gs :=
  fun b _ => agree b

theorem agree_touch (agree : Agree fs gs) (b : BlockId) : Agree (fs.touch b) gs := by
  intro c
  rw [frame_touch, agree c]

theorem agree_touch_both (agree : Agree fs gs) (b : BlockId) :
    Agree (fs.touch b) (gs.touch b) :=
  agree_symm (agree_touch (agree_symm (agree_touch agree b)) b)

theorem agree_allocate (agree : Agree fs gs) (b : BlockId) (ty : ValueType) (v : VarId) :
    Agree (fs.allocate b ty v).2 (gs.allocate b ty v).2 := by
  intro c
  have same := sameOn_of_agree agree [b, c]
  exact sameOn_allocate same (by simp) ty v c (by simp)

theorem agree_openUnder (agree : Agree fs gs) (child parent : BlockId) :
    Agree (fs.openUnder child parent) (gs.openUnder child parent) := by
  intro c
  have same := sameOn_of_agree agree [child, parent, c]
  exact sameOn_openUnder same (by simp) (by simp) c (by simp)

theorem agree_after (agree : Agree fs gs) (r : Request) : Agree (fs.after r) (gs.after r) := by
  cases r with
  | allocate b ty v => exact agree_allocate agree b ty v
  | openUnder child parent => exact agree_openUnder (agree_touch_both agree parent) child parent
  | ownBytes b => exact agree_touch_both agree b
  | reach b => exact agree_touch_both agree b
  | slotOffset v b name => exact agree

/-- A request that only asks may be made on one side alone. -/
theorem agree_reading (agree : Agree fs gs) {r : Request} (reads : r.isReading = true) :
    Agree (fs.after r) gs := by
  cases r with
  | allocate b ty v => cases reads
  | openUnder child parent => cases reads
  | ownBytes b => exact agree_touch agree b
  | reach b => exact agree_touch agree b
  | slotOffset v b name => exact agree

theorem offset?_of_agree (agree : Agree fs gs) (b : BlockId) (v : VarId) :
    fs.offset? b v = gs.offset? b v :=
  offset?_same (sameOn_of_agree agree [b]) (by simp) v

theorem reply_of_agree (agree : Agree fs gs) (r : Request) : fs.reply r = gs.reply r := by
  cases r with
  | allocate b ty v =>
    have slots := offset?_of_agree (agree_allocate agree b ty v) b v
    rw [offset?_allocate_self, offset?_allocate_self, Option.some.injEq] at slots
    rw [reply, reply, slots]
  | openUnder child parent => rfl
  | ownBytes b => rw [reply, reply, Frames.ownBytes, Frames.ownBytes, agree b]
  | reach b => rw [reply, reply, reach_same (sameOn_of_agree agree [b]) (by simp)]
  | slotOffset v b name =>
    rw [reply, reply, slotOffset, slotOffset, offset?_of_agree agree b v]

end

/-- A place of a history that is edited: a request stays, is left out or is put in. -/
inductive Edit where
  | keep (r : Request)
  | delete (r : Request)
  | insert (r : Request)
  deriving DecidableEq, Repr

namespace Edit

def old? : Edit → Option Request
  | .keep r => some r
  | .delete r => some r
  | .insert _ => none

def new? : Edit → Option Request
  | .keep r => some r
  | .delete _ => none
  | .insert r => some r

/-- Whether what is left out or put in only asks. -/
def OfReading : Edit → Prop
  | .keep _ => True
  | .delete r => r.isReading = true
  | .insert r => r.isReading = true

/-- The history before an edit. -/
def old (script : List Edit) : List Request := script.filterMap old?

/-- The history after an edit. -/
def new (script : List Edit) : List Request := script.filterMap new?

end Edit

theorem agree_edited {fs gs : Frames} (agree : Agree fs gs) {script : List Edit}
    (reads : ∀ e ∈ script, e.OfReading) :
    Agree (fs.run (Edit.old script)) (gs.run (Edit.new script)) := by
  induction script generalizing fs gs with
  | nil => exact agree
  | cons e rest ih =>
    have first := reads e List.mem_cons_self
    have later := fun x member => reads x (List.mem_cons_of_mem e member)
    cases e with
    | keep r => exact ih (agree_after agree r) later
    | delete r => exact ih (agree_reading agree first) later
    | insert r => exact ih (agree_symm (agree_reading (agree_symm agree) first)) later

theorem length_replies (fs : Frames) (history : List Request) :
    (fs.replies history).length = history.length := by
  induction history generalizing fs with
  | nil => rfl
  | cons r rest ih => simp [replies, ih]

/-- The reply to a request comes at the request's place. -/
theorem replies_at (fs : Frames) (before : List Request) (r : Request) (later : List Request) :
    (fs.replies (before ++ r :: later))[before.length]? = some ((fs.run before).reply r) := by
  rw [replies_append, ← length_replies fs before, List.getElem?_append_right (Nat.le_refl _),
    Nat.sub_self]
  rfl

/-- Leaving out requests that only ask, and putting in others, changes no reply to a request that
stays, at any moment and for any blocks. -/
theorem readings_unseen {script : List Edit} (reads : ∀ e ∈ script, e.OfReading) :
    ∀ front r back, script = front ++ .keep r :: back → ∃ answer,
      (replies {} (Edit.old script))[(Edit.old front).length]? = some answer ∧
      (replies {} (Edit.new script))[(Edit.new front).length]? = some answer := by
  rintro front r back rfl
  have agree : Agree (run {} (Edit.old front)) (run {} (Edit.new front)) :=
    agree_edited (fun _ => rfl) fun e member => reads e (List.mem_append_left _ member)
  refine ⟨(run {} (Edit.old front)).reply r, ?_, ?_⟩
  · rw [Edit.old, List.filterMap_append]
    exact replies_at {} _ r _
  · rw [Edit.new, List.filterMap_append, reply_of_agree agree r]
    exact replies_at {} _ r _

/-- Both histories ask, of blocks with and without a frame, before and after each other request. -/
def asked : List Edit :=
  [.insert (.reach ⟨9⟩), .keep (.allocate ⟨0⟩ .int ⟨0⟩), .delete (.ownBytes ⟨1⟩),
    .insert (.slotOffset ⟨5⟩ ⟨1⟩ "q"), .keep (.openUnder ⟨1⟩ ⟨0⟩), .insert (.reach ⟨1⟩),
    .delete (.reach ⟨7⟩), .keep (.allocate ⟨1⟩ .char ⟨1⟩), .insert (.ownBytes ⟨2⟩)]

theorem readings_unseen_asked :
    (∀ e ∈ asked, e.OfReading) ∧ ∃ answer,
      (replies {} [.allocate ⟨0⟩ .int ⟨0⟩, .ownBytes ⟨1⟩, .openUnder ⟨1⟩ ⟨0⟩, .reach ⟨7⟩,
        .allocate ⟨1⟩ .char ⟨1⟩])[4]? = some answer ∧
      (replies {} [.reach ⟨9⟩, .allocate ⟨0⟩ .int ⟨0⟩, .slotOffset ⟨5⟩ ⟨1⟩ "q",
        .openUnder ⟨1⟩ ⟨0⟩, .reach ⟨1⟩, .allocate ⟨1⟩ .char ⟨1⟩, .ownBytes ⟨2⟩])[5]? =
          some answer := by
  have reads : ∀ e ∈ asked, e.OfReading := by simp [asked, Edit.OfReading, Request.isReading]
  exact ⟨reads, readings_unseen reads (asked.take 7) (.allocate ⟨1⟩ .char ⟨1⟩) (asked.drop 8) rfl⟩

/-- The frames themselves do keep a trace of what was asked. -/
example : run {} [.reach ⟨7⟩] ≠ run {} [] := by decide

end Frames

end Ia32Backend
