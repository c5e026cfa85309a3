import Ia32Backend.Frames.Checked
import Ia32Backend.Proofs.FrameHistory
import Mathlib.Data.List.Forall2

/-!
Frames in 32-bit arithmetic. As long as no block reaches past the largest number, the checked
frames hold the same numbers as the unbounded ones and give the same replies. Bases are copied from
the reach of other blocks and never added up, so no pattern of openings takes a block deeper than
all slots together, and fewer than `2 ^ 29` slots leave no sum and no negation out of range.
-/
namespace Ia32Backend

namespace Frames

/-- No request takes a block up again. -/
theorem reach_le_after (fs : Frames) (r : Request) (b : BlockId) :
    fs.reach b ≤ (fs.after r).reach b := by
  unfold Frames.reach
  cases r with
  | allocate c ty v =>
    by_cases same : c = b
    · subst c
      cases old : fs.offset? b v with
      | some offset =>
        apply Nat.le_of_eq
        rw [after, allocate_of_some fs old]
      | none =>
        rw [after, frame_allocate_of_none fs old, Frame.reach_push]
        exact Nat.le_add_right _ _
    · apply Nat.le_of_eq
      rw [after, frame_allocate_of_ne fs same]
  | openUnder child parent =>
    by_cases same : child = b
    · subst child
      rw [after, frame_openUnder_self, frame_touch]
      exact Frame.le_reach_openBelow _ _
    · apply Nat.le_of_eq
      rw [after, frame_openUnder_of_ne _ same, frame_touch]
  | ownBytes c =>
    apply Nat.le_of_eq
    rw [after, frame_touch]
  | reach c =>
    apply Nat.le_of_eq
    rw [after, frame_touch]
  | slotOffset v c name => exact Nat.le_refl _

theorem reach_le_run (fs : Frames) (history : List Request) (b : BlockId) :
    fs.reach b ≤ (fs.run history).reach b := by
  induction history generalizing fs with
  | nil => exact Nat.le_refl _
  | cons r rest ih => exact Nat.le_trans (reach_le_after fs r b) (ih (fs.after r))

end Frames

theorem signed?_of_range (value : Int) (low : -2 ^ 31 ≤ value) (high : value < 2 ^ 31) :
    ∃ n, signed? value = some n ∧ n.toInt = value := by
  have number := Int32.toInt_ofInt_of_le (n := value) (by omega) (by omega)
  exact ⟨Int32.ofInt value, signed?_eq_some.mpr number, number⟩

namespace CheckedFrame

/-- The 32-bit frame of an unbounded one. -/
structure Holds (c : CheckedFrame) (f : Frame) : Prop where
  base : c.base.toInt = f.base
  ownBytes : c.ownBytes.toInt = f.ownBytes
  vars : c.offsets.map Prod.fst = f.slots.map Slot.var
  offsets : ∀ v, (c.offsets.lookup v).map Int32.toInt = (f.depth? v).map fun d => -(d : Int)

variable {c : CheckedFrame} {f : Frame}

theorem holds_empty : Holds {} {} where
  base := rfl
  ownBytes := rfl
  vars := rfl
  offsets _ := rfl

theorem reach?_of_holds (holds : c.Holds f) (fits : f.reach < 2 ^ 31) :
    ∃ reach, c.reach? = some reach ∧ reach.toInt = f.reach := by
  have total : c.base.toInt + c.ownBytes.toInt = f.reach := by
    rw [holds.base, holds.ownBytes, Frame.reach, Int.natCast_add]
  rw [reach?, total]
  exact signed?_of_range f.reach (by omega) (by omega)

theorem holds_push (holds : c.Holds f) {v : VarId} {ty : ValueType} {own offset : Int32}
    (used : own.toInt = f.ownBytes + ty.slotSize)
    (lowest : offset.toInt = -((f.push v ty).reach : Int)) :
    Holds { c with ownBytes := own, offsets := (v, offset) :: c.offsets } (f.push v ty) := by
  constructor
  · exact holds.base
  · simp only [used, Frame.push, Frame.ownBytes, Frame.bytes]
    omega
  · simp [Frame.push, holds.vars]
  · intro w
    by_cases same : v = w
    · subst w
      rw [Frame.depth?_push_self]
      simp [lowest]
    · rw [Frame.depth?_push_of_ne f same, ← holds.offsets w]
      simp [List.lookup_cons, beq_eq_false_iff_ne.mpr (Ne.symm same)]

/-- A new slot takes three steps, and the reach after it bounds them all. -/
theorem push?_of_holds (holds : c.Holds f) {v : VarId} {ty : ValueType}
    (fits : (f.push v ty).reach < 2 ^ 31) :
    ∃ offset later, c.push? v ty = some (offset, later) ∧
      offset.toInt = -((f.push v ty).reach : Int) ∧ later.Holds (f.push v ty) := by
  have deeper := Frame.reach_push f v ty
  have inside : f.ownBytes ≤ f.reach := Nat.le_add_left _ _
  obtain ⟨own, ownSum, used⟩ :=
    signed?_of_range (f.ownBytes + ty.slotSize) (by omega) (by omega)
  have total : c.base.toInt + own.toInt = (f.push v ty).reach := by
    rw [holds.base, used, deeper, Frame.reach]
    omega
  obtain ⟨reach, reachSum, reachValue⟩ :=
    signed?_of_range (c.base.toInt + own.toInt) (by omega) (by omega)
  obtain ⟨offset, negated, lowest⟩ := signed?_of_range (-reach.toInt) (by omega) (by omega)
  rw [reachValue, total] at lowest
  refine ⟨offset, { c with ownBytes := own, offsets := (v, offset) :: c.offsets }, ?_, lowest,
    holds_push holds used lowest⟩
  simp [push?, reach?, holds.ownBytes, ownSum, reachSum, negated]

theorem openBelow_of_holds (holds : c.Holds f) {n : Int32} {depth : Nat}
    (value : n.toInt = depth) : (c.openBelow n).Holds (f.openBelow depth) := by
  obtain ⟨base, slots⟩ := f
  obtain ⟨start, own, offsets⟩ := c
  have vars := holds.vars
  cases slots with
  | nil =>
    cases offsets with
    | cons entry rest => simp at vars
    | nil =>
      refine ⟨?_, holds.ownBytes, rfl, fun v => rfl⟩
      have before := holds.base
      simp only [openBelow, Frame.openBelow, Int32.le_iff_toInt_le] at before ⊢
      split <;> omega
  | cons s older =>
    cases offsets with
    | nil => simp at vars
    | cons entry rest => exact holds

end CheckedFrame

namespace CheckedFrames

/-- Checked frames that are the 32-bit frames of unbounded ones. -/
def Holds (c : CheckedFrames) (fs : Frames) : Prop := ∀ b, (c.frame b).Holds (fs.frame b)

/-- The same reply in 32 bits and without bound. -/
def Reply.Same : Reply → Frames.Reply → Prop
  | .offset value, .offset number => value.toInt = number
  | .bytes count, .bytes number => count.toInt = number
  | .opened, .opened => True
  | .fault cause, .fault other => cause = other
  | _, _ => False

section
variable {c : CheckedFrames} {fs : Frames}

theorem holds_empty : Holds {} {} := fun _ => CheckedFrame.holds_empty

theorem holds_set (holds : c.Holds fs) {b : BlockId} {later : CheckedFrame} {f : Frame}
    (new : later.Holds f) : (c.set b later).Holds (fs.set b f) := by
  intro other
  rw [frame_set, Frames.frame_set]
  split
  · exact new
  · exact holds other

theorem holds_touch (holds : c.Holds fs) (b : BlockId) : c.Holds (fs.touch b) := by
  intro other
  rw [Frames.frame_touch]
  exact holds other

theorem lookup_of_some (holds : c.Holds fs) {b : BlockId} {v : VarId} {offset : Int}
    (found : fs.offset? b v = some offset) :
    ∃ value, (c.frame b).offsets.lookup v = some value ∧ value.toInt = offset := by
  have same := (holds b).offsets v
  rw [Frames.offset?] at found
  rw [found] at same
  exact Option.map_eq_some_iff.mp same

theorem lookup_of_none (holds : c.Holds fs) {b : BlockId} {v : VarId}
    (missing : fs.offset? b v = none) : (c.frame b).offsets.lookup v = none := by
  have same := (holds b).offsets v
  rw [Frames.offset?] at missing
  rw [missing] at same
  exact Option.map_eq_none_iff.mp same

/-- A request that leaves no block past the largest number stays in range. -/
theorem step?_of_holds (holds : c.Holds fs) (r : Frames.Request)
    (fits : ∀ b, (fs.after r).reach b < 2 ^ 31) :
    ∃ answer later, c.step? r = some (answer, later) ∧ answer.Same (fs.reply r) ∧
      later.Holds (fs.after r) := by
  cases r with
  | allocate b ty v =>
    cases old : fs.offset? b v with
    | some offset =>
      obtain ⟨value, found, same⟩ := lookup_of_some holds old
      refine ⟨.offset value, c, by simp [step?, found], ?_, ?_⟩
      · rw [Frames.reply, Frames.allocate_of_some fs old]
        exact same
      · rw [Frames.after, Frames.allocate_of_some fs old]
        exact holds
    | none =>
      have room := fits b
      rw [Frames.after, Frames.reach, Frames.frame_allocate_of_none fs old] at room
      obtain ⟨offset, later, pushed, value, new⟩ := CheckedFrame.push?_of_holds (holds b) room
      refine ⟨.offset offset, c.set b later, ?_, ?_, ?_⟩
      · simp [step?, lookup_of_none holds old, pushed]
      · simp only [Frames.reply, Frames.allocate, old]
        exact value
      · simp only [Frames.after, Frames.allocate, old]
        exact holds_set holds new
  | openUnder child parent =>
    have room := Nat.lt_of_le_of_lt (Frames.reach_le_after fs _ parent) (fits parent)
    obtain ⟨depth, sum, value⟩ := CheckedFrame.reach?_of_holds (holds parent) room
    refine ⟨.opened, c.set child ((c.frame child).openBelow depth), by simp [step?, sum], trivial,
      ?_⟩
    have below := CheckedFrame.openBelow_of_holds (holds_touch holds parent child) value
    rw [Frames.after, Frames.openUnder, Frames.reach, Frames.frame_touch _ _ parent]
    exact holds_set (holds_touch holds parent) below
  | ownBytes b => exact ⟨_, _, rfl, (holds b).ownBytes, holds_touch holds b⟩
  | reach b =>
    have room := fits b
    rw [Frames.after, Frames.reach, Frames.frame_touch] at room
    obtain ⟨reach, sum, value⟩ := CheckedFrame.reach?_of_holds (holds b) room
    exact ⟨.bytes reach, c, by simp [step?, sum], value, holds_touch holds b⟩
  | slotOffset v b name =>
    cases old : fs.offset? b v with
    | some offset =>
      obtain ⟨value, found, same⟩ := lookup_of_some holds old
      refine ⟨.offset value, c, by simp [step?, found], ?_, holds⟩
      rw [Frames.reply, Frames.slotOffset_of_some old]
      exact same
    | none =>
      refine ⟨.fault (.noSlot v name), c, by simp [step?, lookup_of_none holds old], ?_, holds⟩
      rw [Frames.reply, Frames.slotOffset_of_none old]
      exact rfl

theorem run?_of_holds (history : List Frames.Request) (holds : c.Holds fs)
    (fits : ∀ b, (fs.run history).reach b < 2 ^ 31) :
    ∃ answers last, c.run? history = some (answers, last) ∧
      List.Forall₂ Reply.Same answers (fs.replies history) ∧ last.Holds (fs.run history) := by
  induction history generalizing c fs with
  | nil => exact ⟨[], c, rfl, .nil, holds⟩
  | cons r rest ih =>
    have first : ∀ b, (fs.after r).reach b < 2 ^ 31 := fun b =>
      Nat.lt_of_le_of_lt (Frames.reach_le_run (fs.after r) rest b) (fits b)
    obtain ⟨answer, later, step, same, kept⟩ := step?_of_holds holds r first
    obtain ⟨answers, last, run, all, held⟩ := ih kept fits
    exact ⟨answer :: answers, last, by simp [run?, step, run], .cons same all, held⟩

end

end CheckedFrames

namespace Frames

/-- Histories of fewer than `2 ^ 29` slots never leave 32 bits, whatever is opened under what: at
each moment all checks have passed, the replies are the unbounded ones, every block reaches at
most as deep as all slots so far take, every offset is negative, and no block has ever reached
deeper before. -/
theorem arithmetic_in_range {history : List Request} (few : (placed history).length < 2 ^ 29) :
    ∀ moment, moment <+: history →
      ∃ answers words, CheckedFrames.run? {} moment = some (answers, words) ∧
        List.Forall₂ CheckedFrames.Reply.Same answers (replies {} moment) ∧
        (∀ b, ∃ reach, (words.frame b).reach? = some reach ∧
          reach.toInt = (run {} moment).reach b ∧
          0 ≤ reach.toInt ∧ reach.toInt ≤ 4 * (placed moment).length) ∧
        (∀ b v offset, (words.frame b).offsets.lookup v = some offset → offset.toInt < 0) ∧
        (∀ earlier, earlier <+: moment → ∀ b, (run {} earlier).reach b ≤ (run {} moment).reach b) := by
  intro moment first
  have fewer : (placed moment).length ≤ (placed history).length := by
    obtain ⟨later, rfl⟩ := first
    exact (placed_keeps moment later).length_le
  have bound := (represents_run moment).reach
  have fits : ∀ b, (run {} moment).reach b < 2 ^ 31 := by
    intro b
    have room := bound b
    omega
  obtain ⟨answers, words, done, same, holds⟩ :=
    CheckedFrames.run?_of_holds moment CheckedFrames.holds_empty fits
  refine ⟨answers, words, done, same, ?_, ?_, ?_⟩
  · intro b
    obtain ⟨reach, sum, value⟩ := CheckedFrame.reach?_of_holds (holds b) (fits b)
    have room := bound b
    refine ⟨reach, sum, value, ?_, ?_⟩
    · rw [value]
      exact Int.natCast_nonneg _
    · rw [value]
      exact_mod_cast room
  · intro b v offset found
    have slot : (run {} moment).offset? b v = some offset.toInt := by
      rw [Frames.offset?, ← (holds b).offsets v, found, Option.map_some]
    obtain ⟨i, _, value⟩ :=
      position_of_offset? (represents_run moment) (nodup_placed moment) slot
    omega
  · rintro earlier ⟨later, rfl⟩ b
    rw [run_append]
    exact reach_le_run _ later b

/-- Blocks 1 and 2 are opened under each other and block 2 under itself, with and without slots. -/
def cycle : List Request :=
  [.allocate ⟨0⟩ .int ⟨0⟩, .openUnder ⟨1⟩ ⟨0⟩, .openUnder ⟨2⟩ ⟨1⟩, .openUnder ⟨1⟩ ⟨2⟩,
    .openUnder ⟨2⟩ ⟨2⟩, .allocate ⟨2⟩ .char ⟨1⟩, .openUnder ⟨1⟩ ⟨2⟩, .allocate ⟨1⟩ .float ⟨2⟩,
    .openUnder ⟨2⟩ ⟨1⟩, .slotOffset ⟨2⟩ ⟨1⟩ "x"]

theorem arithmetic_in_range_cycle :
    (placed cycle).length < 2 ^ 29 ∧
    ∃ answers words, CheckedFrames.run? {} cycle = some (answers, words) ∧
      List.Forall₂ CheckedFrames.Reply.Same answers (replies {} cycle) ∧
      (∃ reach, (words.frame ⟨1⟩).reach? = some reach ∧ reach.toInt = 12) ∧
      (run {} (cycle.take 6)).reach ⟨1⟩ ≤ (run {} cycle).reach ⟨1⟩ := by
  have few : (placed cycle).length < 2 ^ 29 := by decide
  obtain ⟨answers, words, done, same, room, _, deeper⟩ :=
    arithmetic_in_range few cycle (List.prefix_refl _)
  obtain ⟨reach, sum, value, _, _⟩ := room ⟨1⟩
  refine ⟨few, answers, words, done, same, ⟨reach, sum, ?_⟩, ?_⟩
  · rw [value]
    decide
  · exact deeper (cycle.take 6) (List.take_prefix _ _) ⟨1⟩

end Frames

end Ia32Backend
