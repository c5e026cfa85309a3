import Ia32Backend.Frames.History
import Ia32Backend.Proofs.FrameWords
import Mathlib.Algebra.Group.Int.Defs
import Mathlib.Algebra.Group.Nat.Defs
import Mathlib.Data.List.Induction
import Mathlib.Data.List.Nodup

/-!
Frames after a history of requests. A block's frame is told by its base and by the variables that
were allocated in it, in the order of their first allocation: the variable at position `i` has the
word `base + 4 * (i + 1)` below the frame pointer. The base stays once the frame holds a slot, and
no frame reaches deeper than all slots together.
-/
namespace Ia32Backend

namespace Frame

/-- The variables of a frame, oldest first. -/
def vars (f : Frame) : List VarId := (f.slots.map Slot.var).reverse

theorem vars_push (f : Frame) (v : VarId) (ty : ValueType) :
    (f.push v ty).vars = f.vars ++ [v] := by
  simp [vars, push]

theorem slots_openBelow (f : Frame) (depth : Nat) : (f.openBelow depth).slots = f.slots := by
  unfold openBelow
  split
  · rename_i empty
    rw [empty]
  · rfl

theorem vars_openBelow (f : Frame) (depth : Nat) : (f.openBelow depth).vars = f.vars := by
  rw [vars, slots_openBelow, vars]

theorem base_openBelow {f : Frame} (used : f.vars ≠ []) (depth : Nat) :
    (f.openBelow depth).base = f.base := by
  unfold openBelow
  split
  · rename_i empty
    exact absurd (by rw [vars, empty]; rfl) used
  · rfl

theorem depthIn_eq_none {base : Nat} {v : VarId} {slots : List Slot} :
    depthIn base v slots = none ↔ v ∉ slots.map Slot.var := by
  induction slots with
  | nil => simp [depthIn]
  | cons s older ih =>
    by_cases same : s.var = v
    · simp [depthIn, same]
    · simp [depthIn, same, ih, Ne.symm same]

theorem depth?_eq_none {f : Frame} {v : VarId} : f.depth? v = none ↔ v ∉ f.vars := by
  rw [depth?, depthIn_eq_none, vars, List.mem_reverse]

/-- The newest variable is the last one, so positions count from the base downwards. -/
theorem depthIn_of_position {base i : Nat} {v : VarId} {slots : List Slot}
    (size : ∀ s ∈ slots, s.size = 4) (distinct : (slots.map Slot.var).Nodup)
    (position : (slots.map Slot.var).reverse[i]? = some v) :
    depthIn base v slots = some (base + 4 * (i + 1)) := by
  induction slots with
  | nil => simp at position
  | cons s older ih =>
    have below := fun t member => size t (List.mem_cons_of_mem s member)
    have first := size s List.mem_cons_self
    rw [List.map_cons, List.nodup_cons] at distinct
    rw [List.map_cons, List.reverse_cons] at position
    rcases Nat.lt_or_ge i (older.map Slot.var).reverse.length with inside | last
    · rw [List.getElem?_append_left inside] at position
      have different : s.var ≠ v := by
        intro same
        refine distinct.1 ?_
        rw [same, ← List.mem_reverse]
        exact List.mem_of_getElem? position
      rw [depthIn, if_neg different]
      exact ih below distinct.2 position
    · rw [List.getElem?_append_right last] at position
      rw [List.getElem?_singleton] at position
      split at position
      · rename_i zero
        have total := bytes_eq older below
        rw [List.length_reverse, List.length_map] at last zero
        rw [depthIn, if_pos (Option.some.inj position), bytes]
        congr 1
        omega
      · cases position

theorem depth?_of_position {f : Frame} {i : Nat} {v : VarId} (words : f.Wordwise)
    (distinct : f.vars.Nodup) (position : f.vars[i]? = some v) :
    f.depth? v = some (f.base + 4 * (i + 1)) :=
  depthIn_of_position words.size (List.nodup_reverse.mp distinct) position

theorem ownBytes_eq {f : Frame} (words : f.Wordwise) : f.ownBytes = 4 * f.vars.length := by
  rw [ownBytes, bytes_eq f.slots words.size, vars, List.length_reverse, List.length_map]

end Frame

namespace Frames

/-- Pairs of block and variable that have a slot after one more request. -/
def note (placed : List (BlockId × VarId)) : Request → List (BlockId × VarId)
  | .allocate b _ v => if (b, v) ∈ placed then placed else placed ++ [(b, v)]
  | _ => placed

/-- Pairs that were allocated in a history, each at its first allocation. -/
def placed (history : List Request) : List (BlockId × VarId) := history.foldl note []

/-- Variables of one block. -/
def inBlock (b : BlockId) (placed : List (BlockId × VarId)) : List VarId :=
  placed.filterMap fun p => if p.1 = b then some p.2 else none

/-- Variables that were allocated in a block, in the order of their first allocation. -/
def placedIn (b : BlockId) (history : List Request) : List VarId := inBlock b (placed history)

theorem placed_append_one (history : List Request) (r : Request) :
    placed (history ++ [r]) = note (placed history) r := by
  simp [placed]

theorem mem_note {placed : List (BlockId × VarId)} {r : Request} {b : BlockId} {v : VarId} :
    (b, v) ∈ note placed r ↔ (b, v) ∈ placed ∨ ∃ ty, r = .allocate b ty v := by
  cases r with
  | allocate c ty w =>
    simp only [note, Request.allocate.injEq]
    split
    · rename_i old
      constructor
      · exact Or.inl
      · rintro (before | ⟨_, rfl, _, rfl⟩)
        · exact before
        · exact old
    · simp [eq_comm]
  | _ => simp [note]

theorem mem_placed {history : List Request} {b : BlockId} {v : VarId} :
    (b, v) ∈ placed history ↔ ∃ ty, .allocate b ty v ∈ history := by
  induction history using List.reverseRecOn with
  | nil => simp [placed]
  | append_singleton history r ih =>
    rw [placed_append_one, mem_note, ih]
    simp only [List.mem_append, List.mem_singleton, exists_or, eq_comm]

theorem nodup_placed (history : List Request) : (placed history).Nodup := by
  induction history using List.reverseRecOn with
  | nil => exact List.nodup_nil
  | append_singleton history r ih =>
    rw [placed_append_one]
    cases r with
    | allocate b ty v =>
      simp only [note]
      split
      · exact ih
      · rename_i new
        exact List.nodup_append.mpr ⟨ih, List.nodup_singleton _, by
          rintro p old _ only rfl
          exact new (List.mem_singleton.mp only ▸ old)⟩
    | _ => exact ih

theorem mem_inBlock {b : BlockId} {v : VarId} {placed : List (BlockId × VarId)} :
    v ∈ inBlock b placed ↔ (b, v) ∈ placed := by
  simp only [inBlock, List.mem_filterMap, Option.ite_none_right_eq_some, Option.some.injEq,
    Prod.exists]
  constructor
  · rintro ⟨_, _, member, rfl, rfl⟩
    exact member
  · intro member
    exact ⟨b, v, member, rfl, rfl⟩

theorem nodup_inBlock (b : BlockId) {placed : List (BlockId × VarId)} (distinct : placed.Nodup) :
    (inBlock b placed).Nodup := by
  refine List.Nodup.filterMap ?_ distinct
  rintro ⟨c, u⟩ ⟨d, v⟩ w first second
  grind

theorem note_keeps (placed : List (BlockId × VarId)) (r : Request) : placed <+: note placed r := by
  cases r with
  | allocate b ty v =>
    simp only [note]
    split
    · exact List.prefix_refl _
    · exact List.prefix_append _ _
  | _ => exact List.prefix_refl _

theorem placed_keeps (history later : List Request) :
    placed history <+: placed (history ++ later) := by
  induction later using List.reverseRecOn with
  | nil => simp
  | append_singleton later r ih =>
    rw [← List.append_assoc, placed_append_one]
    exact ih.trans (note_keeps _ r)

/-- What the frames know of the pairs that have a slot. -/
structure Represents (fs : Frames) (placed : List (BlockId × VarId)) : Prop where
  words : fs.Wordwise
  vars : ∀ b, (fs.frame b).vars = inBlock b placed
  /-- Each slot is one word, and bases are copied from the reach of other frames. -/
  reach : ∀ b, fs.reach b ≤ 4 * placed.length

theorem represents_empty : Represents {} [] where
  words := wordwise_empty
  vars _ := rfl
  reach _ := Nat.le_refl 0

theorem offset?_eq_none {fs : Frames} {placed : List (BlockId × VarId)} {b : BlockId} {v : VarId}
    (rep : fs.Represents placed) : fs.offset? b v = none ↔ (b, v) ∉ placed := by
  rw [← mem_inBlock, ← rep.vars, ← Frame.depth?_eq_none]
  constructor
  · exact depth?_eq_none
  · intro missing
    rw [Option.eq_none_iff_forall_ne_some]
    intro offset found
    obtain ⟨d, slot, _⟩ := depth?_of_offset? found
    rw [missing] at slot
    cases slot

theorem represents_allocate {fs : Frames} {placed : List (BlockId × VarId)}
    (rep : fs.Represents placed) (b : BlockId) (ty : ValueType) (v : VarId) :
    (fs.allocate b ty v).2.Represents (note placed (.allocate b ty v)) := by
  have words := wordwise_allocate rep.words b ty v
  by_cases old : (b, v) ∈ placed
  · obtain ⟨offset, found⟩ := Option.ne_none_iff_exists'.mp (mt (offset?_eq_none rep).mp (· old))
    rw [allocate_of_some fs found, note, if_pos old]
    exact rep
  · have found := (offset?_eq_none rep).mpr old
    have frame := frame_allocate_of_none fs found ty
    rw [note, if_neg old]
    refine ⟨words, ?_, ?_⟩
    · intro c
      by_cases same : b = c
      · subst c
        rw [frame, Frame.vars_push, rep.vars]
        simp [inBlock]
      · rw [frame_allocate_of_ne fs same, rep.vars]
        simp [inBlock, same]
    · intro c
      have before := rep.reach c
      rw [List.length_append, List.length_singleton]
      by_cases same : b = c
      · subst c
        rw [Frames.reach, frame, Frame.reach_push, ValueType.slotSize]
        simp only [Frames.reach] at before
        omega
      · rw [Frames.reach, frame_allocate_of_ne fs same]
        simp only [Frames.reach] at before
        omega

theorem represents_touch {fs : Frames} {placed : List (BlockId × VarId)}
    (rep : fs.Represents placed) (b : BlockId) : (fs.touch b).Represents placed := by
  refine ⟨wordwise_touch rep.words b, ?_, ?_⟩
  · intro c
    rw [frame_touch, rep.vars]
  · intro c
    rw [Frames.reach, frame_touch]
    exact rep.reach c

theorem represents_openUnder {fs : Frames} {placed : List (BlockId × VarId)}
    (rep : fs.Represents placed) (child parent : BlockId) :
    (fs.openUnder child parent).Represents placed := by
  refine ⟨wordwise_openUnder rep.words child parent, ?_, ?_⟩
  · intro b
    by_cases same : child = b
    · subst b
      rw [frame_openUnder_self, Frame.vars_openBelow, rep.vars]
    · rw [frame_openUnder_of_ne fs same, rep.vars]
  · intro b
    by_cases same : child = b
    · subst b
      exact Nat.le_trans (reach_openUnder_le fs child parent)
        (Nat.max_le.mpr ⟨rep.reach child, rep.reach parent⟩)
    · rw [Frames.reach, frame_openUnder_of_ne fs same]
      exact rep.reach b

/-- Every request keeps the frames in step with the pairs. -/
theorem represents_after {fs : Frames} {placed : List (BlockId × VarId)}
    (rep : fs.Represents placed) (r : Request) : (fs.after r).Represents (note placed r) := by
  cases r with
  | allocate b ty v => exact represents_allocate rep b ty v
  | openUnder child parent => exact represents_openUnder (represents_touch rep parent) child parent
  | ownBytes b => exact represents_touch rep b
  | reach b => exact represents_touch rep b
  | slotOffset v b name => exact rep

theorem represents_run (history : List Request) :
    (run {} history).Represents (placed history) := by
  induction history using List.reverseRecOn with
  | nil => exact represents_empty
  | append_singleton history r ih =>
    rw [placed_append_one, run_append]
    exact represents_after ih r

/-! The base of a frame in use. -/

theorem base_after {fs : Frames} {b : BlockId} (used : (fs.frame b).vars ≠ []) (r : Request) :
    ((fs.after r).frame b).base = (fs.frame b).base ∧ ((fs.after r).frame b).vars ≠ [] := by
  cases r with
  | allocate c ty v =>
    rw [after]
    by_cases same : c = b
    · subst c
      cases old : fs.offset? b v with
      | some offset =>
        rw [allocate_of_some fs old]
        exact ⟨rfl, used⟩
      | none =>
        rw [frame_allocate_of_none fs old, Frame.vars_push]
        exact ⟨rfl, List.append_ne_nil_of_left_ne_nil used _⟩
    · rw [frame_allocate_of_ne fs same]
      exact ⟨rfl, used⟩
  | openUnder child parent =>
    rw [after]
    by_cases same : child = b
    · subst child
      rw [frame_openUnder_self, frame_touch, Frame.vars_openBelow, Frame.base_openBelow used]
      exact ⟨rfl, used⟩
    · rw [frame_openUnder_of_ne _ same, frame_touch]
      exact ⟨rfl, used⟩
  | ownBytes c =>
    rw [after, frame_touch]
    exact ⟨rfl, used⟩
  | reach c =>
    rw [after, frame_touch]
    exact ⟨rfl, used⟩
  | slotOffset v c name => exact ⟨rfl, used⟩

theorem base_run {fs : Frames} {b : BlockId} (used : (fs.frame b).vars ≠ [])
    (later : List Request) : ((fs.run later).frame b).base = (fs.frame b).base := by
  induction later generalizing fs with
  | nil => rfl
  | cons r rest ih =>
    obtain ⟨base, still⟩ := base_after used r
    exact (ih still).trans base

theorem extends_after (fs : Frames) (r : Request) : fs.Extends (fs.after r) := by
  cases r with
  | allocate b ty v => exact extends_allocate fs b ty v
  | openUnder child parent =>
    exact extends_trans (extends_touch fs parent) (extends_openUnder _ child parent)
  | ownBytes b => exact extends_touch fs b
  | reach b => exact extends_touch fs b
  | slotOffset v b name => exact extends_refl fs

theorem extends_run (fs : Frames) (later : List Request) : fs.Extends (fs.run later) := by
  induction later generalizing fs with
  | nil => exact extends_refl fs
  | cons r rest ih => exact extends_trans (extends_after fs r) (ih (fs.after r))

theorem offset?_extends {fs later : Frames} (kept : fs.Extends later) {b : BlockId} {v : VarId}
    {offset : Int} (found : fs.offset? b v = some offset) : later.offset? b v = some offset := by
  obtain ⟨d, slot, rfl⟩ := depth?_of_offset? found
  exact offset?_of_depth? (kept b v d slot)

section
variable {fs : Frames} {placed : List (BlockId × VarId)} {b : BlockId} {v : VarId}

theorem slotOffset_of_some {offset : Int} (found : fs.offset? b v = some offset)
    (name : String) : fs.slotOffset v b name = .ok offset := by
  rw [slotOffset, found]

theorem slotOffset_of_none (missing : fs.offset? b v = none) (name : String) :
    fs.slotOffset v b name = .error (.noSlot v name) := by
  rw [slotOffset, missing]

theorem offset?_of_slotOffset {name : String} {offset : Int}
    (found : fs.slotOffset v b name = .ok offset) : fs.offset? b v = some offset := by
  cases slot : fs.offset? b v with
  | none =>
    rw [slotOffset_of_none slot] at found
    cases found
  | some other =>
    rw [slotOffset_of_some slot, Except.ok.injEq] at found
    rw [found]

theorem offset?_of_position (rep : fs.Represents placed) (distinct : placed.Nodup) {i : Nat}
    (position : (inBlock b placed)[i]? = some v) :
    fs.offset? b v = some (-(((fs.frame b).base + 4 * (i + 1) : Nat) : Int)) := by
  rw [← rep.vars] at position
  refine offset?_of_depth? (Frame.depth?_of_position (rep.words b) ?_ position)
  rw [rep.vars]
  exact nodup_inBlock b distinct

/-- The converse: an offset tells the position, so variables of a block never share one. -/
theorem position_of_offset? (rep : fs.Represents placed) (distinct : placed.Nodup) {offset : Int}
    (found : fs.offset? b v = some offset) :
    ∃ i, (inBlock b placed)[i]? = some v ∧
      offset = -(((fs.frame b).base + 4 * (i + 1) : Nat) : Int) := by
  have known : v ∈ inBlock b placed := by
    by_contra unknown
    rw [(offset?_eq_none rep).mpr (mt mem_inBlock.mpr unknown)] at found
    cases found
  obtain ⟨i, position⟩ := List.mem_iff_getElem?.mp known
  rw [offset?_of_position rep distinct position, Option.some.injEq] at found
  exact ⟨i, position, found.symm⟩

end

/-! Frames after a history. -/

section
variable {history : List Request} {b : BlockId} {v : VarId}

theorem ownBytes_run (history : List Request) (b : BlockId) :
    (run {} history).ownBytes b = 4 * (placedIn b history).length := by
  have rep := represents_run history
  rw [Frames.ownBytes, Frame.ownBytes_eq (rep.words b), rep.vars]
  rfl

theorem reach_run (history : List Request) (b : BlockId) :
    (run {} history).reach b =
      ((run {} history).frame b).base + 4 * (placedIn b history).length := by
  rw [← ownBytes_run]
  rfl

/-- From the first allocation on, a block's base is the one it has at the end. -/
theorem base_of_prefix {moment : List Request} (first : moment <+: history)
    (used : placedIn b moment ≠ [] ∨ moment = history) :
    ((run {} moment).frame b).base = ((run {} history).frame b).base := by
  obtain ⟨later, rfl⟩ := first
  rcases used with used | all
  · rw [run_append]
    exact (base_run (by rwa [(represents_run moment).vars]) later).symm
  · rw [← all]

theorem slotOffset_run {i : Nat} (position : (placedIn b history)[i]? = some v) (name : String) :
    (run {} history).slotOffset v b name =
      .ok (-((((run {} history).frame b).base + 4 * (i + 1) : Nat) : Int)) :=
  slotOffset_of_some (offset?_of_position (represents_run history) (nodup_placed history) position)
    name

theorem position_of_slotOffset {name : String} {offset : Int}
    (found : (run {} history).slotOffset v b name = .ok offset) :
    ∃ i, (placedIn b history)[i]? = some v ∧
      offset = -((((run {} history).frame b).base + 4 * (i + 1) : Nat) : Int) :=
  position_of_offset? (represents_run history) (nodup_placed history) (offset?_of_slotOffset found)

theorem slotOffset_injective {w : VarId} {name other : String} {offset : Int}
    (here : (run {} history).slotOffset v b name = .ok offset)
    (there : (run {} history).slotOffset w b other = .ok offset) : w = v := by
  obtain ⟨i, position, rfl⟩ := position_of_slotOffset here
  obtain ⟨j, also, equal⟩ := position_of_slotOffset there
  have index : j = i := by omega
  rw [index, position] at also
  exact (Option.some.inj also).symm

theorem offset?_kept (before : List Request) (b : BlockId) (ty : ValueType) (v : VarId)
    (between : List Request) :
    (run {} (before ++ .allocate b ty v :: between)).offset? b v =
      some ((run {} before).allocate b ty v).1 := by
  rw [run_append]
  exact offset?_extends (extends_run ((run {} before).after (.allocate b ty v)) between)
    (offset?_allocate_self (run {} before) b ty v)

theorem slotOffset_eq_error {name : String} {cause : Fault} :
    (run {} history).slotOffset v b name = .error cause ↔
      cause = .noSlot v name ∧ ∀ ty, .allocate b ty v ∉ history := by
  have missing := (offset?_eq_none (represents_run history) (b := b) (v := v)).trans
    (not_congr mem_placed)
  rw [not_exists] at missing
  rw [← missing]
  cases found : (run {} history).offset? b v with
  | none => simp [slotOffset_of_none found, eq_comm]
  | some offset => simp [slotOffset_of_some found]

end

/-- Frames after any history of few enough slots for 32 bits. Each block has one base, which stays
from the first allocation on, and below it one word for each variable that was allocated in the
block, in that order. Offsets are distinct, negative and aligned, an offset that was handed out is
the answer to every later request for it, and only a pair that was never allocated has none. -/
theorem frames_represent_history {history : List Request}
    (few : (placed history).length < 2 ^ 29) :
    (∀ b, ∃ base : Nat, ∀ moment, moment <+: history →
      placedIn b moment ≠ [] ∨ moment = history →
      (∀ i v, (placedIn b moment)[i]? = some v → ∀ name,
        (run {} moment).slotOffset v b name = .ok (-((base + 4 * (i + 1) : Nat) : Int))) ∧
      (run {} moment).ownBytes b = 4 * (placedIn b moment).length ∧
      (run {} moment).reach b = base + 4 * (placedIn b moment).length ∧
      base + 4 * (placedIn b moment).length < 2 ^ 31) ∧
    (∀ b v name offset, (run {} history).slotOffset v b name = .ok offset →
      -2 ^ 31 ≤ offset ∧ offset < 0 ∧ 4 ∣ offset ∧
      ∀ w other, (run {} history).slotOffset w b other = .ok offset → w = v) ∧
    (∀ before b ty v between, history = before ++ .allocate b ty v :: between → ∀ later name,
      (run {} history).reply (.allocate b later v) = (run {} before).reply (.allocate b ty v) ∧
      (run {} history).reply (.slotOffset v b name) =
        (run {} before).reply (.allocate b ty v)) ∧
    (∀ b v name cause, (run {} history).slotOffset v b name = .error cause ↔
      cause = .noSlot v name ∧ ∀ ty, .allocate b ty v ∉ history) := by
  refine ⟨?_, ?_, ?_, fun b v name cause => slotOffset_eq_error⟩
  · intro b
    refine ⟨((run {} history).frame b).base, ?_⟩
    intro moment first used
    rw [← base_of_prefix first used]
    have room := (represents_run moment).reach b
    have reach := reach_run moment b
    have fewer : (placed moment).length ≤ (placed history).length := by
      obtain ⟨later, rfl⟩ := first
      exact (placed_keeps moment later).length_le
    exact ⟨fun i v position name => slotOffset_run position name, ownBytes_run moment b, reach,
      by omega⟩
  · intro b v name offset found
    obtain ⟨i, position, value⟩ := position_of_slotOffset found
    have aligned := ((represents_run history).words b).base
    have room := (represents_run history).reach b
    have reach := reach_run history b
    have inside := (List.getElem?_eq_some_iff.mp position).1
    exact ⟨by omega, by omega, by omega, fun w other same => slotOffset_injective found same⟩
  · rintro before b ty v between rfl later name
    have kept := offset?_kept before b ty v between
    simp only [reply, allocate_of_some _ kept, slotOffset_of_some kept, and_self]

/-- Block 1 is opened under itself, then under block 0 and under a block below it, and asked for
`x` twice, the second time as another type. -/
def reopened : List Request :=
  [.openUnder ⟨1⟩ ⟨1⟩, .allocate ⟨0⟩ .int ⟨0⟩, .openUnder ⟨1⟩ ⟨0⟩, .allocate ⟨1⟩ .char ⟨1⟩,
    .openUnder ⟨2⟩ ⟨1⟩, .allocate ⟨2⟩ .int ⟨0⟩, .openUnder ⟨1⟩ ⟨2⟩, .reach ⟨7⟩,
    .allocate ⟨1⟩ .int ⟨2⟩, .allocate ⟨1⟩ .float ⟨1⟩]

theorem frames_represent_reopened :
    (placed reopened).length < 2 ^ 29 ∧ placedIn ⟨1⟩ reopened = [⟨1⟩, ⟨2⟩] ∧
    (∃ base : Nat,
      (run {} reopened).slotOffset ⟨1⟩ ⟨1⟩ "x" = .ok (-((base + 4 : Nat) : Int)) ∧
      (run {} reopened).slotOffset ⟨2⟩ ⟨1⟩ "y" = .ok (-((base + 8 : Nat) : Int)) ∧
      (run {} reopened).ownBytes ⟨1⟩ = 8 ∧ (run {} reopened).reach ⟨1⟩ = base + 8) ∧
    (run {} reopened).reply (.slotOffset ⟨1⟩ ⟨1⟩ "x") =
      (run {} (reopened.take 3)).reply (.allocate ⟨1⟩ .char ⟨1⟩) ∧
    (run {} reopened).slotOffset ⟨0⟩ ⟨1⟩ "z" = .error (.noSlot ⟨0⟩ "z") := by
  have few : (placed reopened).length < 2 ^ 29 := by decide
  obtain ⟨blocks, _, kept, missing⟩ := frames_represent_history few
  refine ⟨few, by decide, ?_, ?_, ?_⟩
  · obtain ⟨base, all⟩ := blocks ⟨1⟩
    obtain ⟨slots, own, reach, _⟩ := all reopened (List.prefix_refl _) (Or.inr rfl)
    exact ⟨base, slots 0 ⟨1⟩ (by decide) "x", slots 1 ⟨2⟩ (by decide) "y", own, reach⟩
  · exact (kept (reopened.take 3) ⟨1⟩ .char ⟨1⟩ (reopened.drop 4) rfl .int "x").2
  · exact (missing ⟨1⟩ ⟨0⟩ "z" _).mpr ⟨rfl, by simp [reopened]⟩

end Frames

end Ia32Backend
