import Ia32Backend.Draft
import Ia32Backend.Proofs.NumberedNames
import Mathlib.Data.List.Induction

/-!
The string pool after a history of requests. Literals and pause strings share one count, so each
text that is added gets the next label and two lines of its own, whichever kind it is. A literal
node is known by its last label, and so is the pause string; a label once written into the listing
stays there.
-/
namespace Ia32Backend

namespace Draft

/-- The text that a request adds to the pool. -/
def Request.pooled? : Request → Option String
  | .addLiteral literal => some literal.text
  | .addPause command => some command
  | _ => none

/-- How many texts a history adds to the pool. -/
def pooledIn (history : List Request) : Nat := (history.filterMap Request.pooled?).length

def poolLabel (n : Nat) : String := numbered "SL" n

/-- The lines of the text with the number `n`. -/
def storedLines (n : Nat) (text : String) : List String :=
  [poolLabel n ++ ":", "\t.ascii \"" ++ StringPool.withoutQuotes text ++ "\\0\""]

/-- The lines that a request writes after `n` texts have been added. -/
def Request.written (n : Nat) : Request → List String
  | .emit line => [line]
  | .instr i => [i.text]
  | .addLiteral literal => storedLines n literal.text
  | .addPause command => storedLines n command
  | _ => []

theorem poolLabel_injective {m n : Nat} (same : poolLabel m = poolLabel n) : m = n := by
  have clear : NoDigits "SL" := generatedStems_noDigits "SL" (by simp [generatedStems])
  exact (numbered_injective clear clear same).2

theorem text_definition (n : Nat) (text : String) :
    (StringPool.definition (poolLabel n) text).map Instr.text = storedLines n text := by
  have opening : "\t.ascii \"" = "\t.ascii " ++ "\"" := rfl
  simp only [StringPool.definition, storedLines, List.map_cons, List.map_nil, Instr.text,
    Instr.line, AsmLine.text, opening, String.append_assoc]
  rfl

theorem run_append (d : Draft) (a b : List Request) : d.run (a ++ b) = (d.run a).run b := by
  simp [run]

/-! One request. -/

theorem count_after (d : Draft) (r : Request) :
    (d.after r).strings.count = d.strings.count + pooledIn [r] := by
  cases r <;> rfl

theorem lines_after (d : Draft) (r : Request) :
    (d.after r).listing.lines = d.listing.lines ++ r.written d.strings.count := by
  cases r with
  | emit line => rfl
  | instr i => rfl
  | addLiteral literal =>
    rw [Request.written, ← text_definition]
    rfl
  | addPause command =>
    rw [Request.written, ← text_definition]
    rfl
  | _ => exact (List.append_nil _).symm

theorem reply_pooled (d : Draft) {r : Request} {text : String} (pooled : r.pooled? = some text) :
    d.reply r = .label (poolLabel d.strings.count) := by
  cases r with
  | addLiteral literal => rfl
  | addPause command => rfl
  | _ => cases pooled

theorem written_pooled (n : Nat) {r : Request} {text : String} (pooled : r.pooled? = some text) :
    r.written n = storedLines n text := by
  cases r with
  | addLiteral literal => rw [Request.written, Option.some.inj pooled]
  | addPause command => rw [Request.written, Option.some.inj pooled]
  | _ => cases pooled

/-- A label that the draft knows: the one given with the latest of some requests, `missing` before
the first of them. -/
structure Latest (view : Draft → Except Fault String) (missing : Fault)
    (adds : String → Request) : Prop where
  start : view {} = .error missing
  kept : ∀ (d : Draft) (r : Request), (∀ text, adds text ≠ r) → view (d.after r) = view d
  added : ∀ (d : Draft) (text : String),
    ∃ name, d.reply (adds text) = .label name ∧ view (d.after (adds text)) = .ok name

theorem latest_node (node : NodeId) :
    Latest (fun d => d.strings.labelAt node) (.literalNotPooled node)
      (fun text => .addLiteral ⟨node, text⟩) where
  start := rfl
  kept d r other := by
    cases r with
    | addLiteral literal =>
      apply StringPool.labelAt_addLiteral_of_ne
      intro same
      subst same
      exact other literal.text rfl
    | addPause command => exact StringPool.labelAt_addPause d.strings command node
    | _ => rfl
  added d text := ⟨_, rfl, StringPool.labelAt_addLiteral d.strings ⟨node, text⟩⟩

theorem latest_pause :
    Latest (fun d => d.strings.pauseLabel) .pauseNotPooled .addPause where
  start := rfl
  kept d r other := by
    cases r with
    | addPause command => exact absurd rfl (other command)
    | addLiteral literal => exact StringPool.pauseLabel_addLiteral d.strings literal
    | _ => rfl
  added d command := ⟨_, rfl, StringPool.pauseLabel_addPause d.strings command⟩

/-! A history of requests. -/

theorem pooledIn_append (before later : List Request) :
    pooledIn (before ++ later) = pooledIn before + pooledIn later := by
  simp [pooledIn]

theorem count_run (history : List Request) :
    (run {} history).strings.count = pooledIn history := by
  induction history using List.reverseRecOn with
  | nil => rfl
  | append_singleton history r ih =>
    rw [run_append, pooledIn_append, ← ih]
    exact count_after _ r

theorem lines_run (d : Draft) (later : List Request) :
    d.listing.lines <+: (d.run later).listing.lines := by
  induction later generalizing d with
  | nil => exact List.prefix_refl _
  | cons r rest ih => exact (lines_prefix_after d r).trans (ih (d.after r))

theorem lines_run_one (before : List Request) (r : Request) :
    (run {} (before ++ [r])).listing.lines =
      (run {} before).listing.lines ++ r.written (pooledIn before) := by
  rw [run_append, ← count_run before]
  exact lines_after _ r

theorem reply_run (before : List Request) {r : Request} {text : String}
    (pooled : r.pooled? = some text) :
    (run {} before).reply r = .label (poolLabel (pooledIn before)) := by
  rw [reply_pooled _ pooled, count_run]

/-- The count has grown between two texts, so their labels differ. -/
theorem reply_run_ne (before between : List Request) {r s : Request} {text other : String}
    (first : r.pooled? = some text) (second : s.pooled? = some other) :
    (run {} before).reply r ≠ (run {} (before ++ r :: between)).reply s := by
  rw [reply_run _ first, reply_run _ second]
  intro same
  injection same with same
  have numbers := poolLabel_injective same
  have counted : pooledIn (r :: between) = pooledIn between + 1 := by
    simp [pooledIn, first]
  rw [pooledIn_append, counted] at numbers
  omega

namespace Latest

variable {view : Draft → Except Fault String} {missing : Fault} {adds : String → Request}

theorem run_kept (latest : Latest view missing adds) (d : Draft) {later : List Request}
    (others : ∀ text, adds text ∉ later) : view (d.run later) = view d := by
  induction later generalizing d with
  | nil => rfl
  | cons r rest ih =>
    simp only [List.mem_cons, not_or, forall_and] at others
    rw [← latest.kept d r others.1]
    exact ih (d.after r) others.2

theorem run_added (latest : Latest view missing adds) (before : List Request) (text : String)
    {later : List Request} (others : ∀ other, adds other ∉ later) :
    Reply.ofLabel (view (run {} (before ++ adds text :: later))) =
      (run {} before).reply (adds text) := by
  obtain ⟨name, given, known⟩ := latest.added (run {} before) text
  have kept := latest.run_kept ((run {} before).after (adds text)) others
  rw [run_append, given]
  exact congrArg Reply.ofLabel (kept.trans known)

theorem run_known (latest : Latest view missing adds) {history : List Request} {text : String}
    (member : adds text ∈ history) : ∃ name, view (run {} history) = .ok name := by
  induction history using List.reverseRecOn with
  | nil => cases member
  | append_singleton history r ih =>
    have last : run {} (history ++ [r]) = (run {} history).after r := run_append {} history [r]
    rw [last]
    by_cases other : ∀ text, adds text ≠ r
    · rw [latest.kept _ r other]
      simp only [List.mem_append, List.mem_singleton, other text, or_false] at member
      exact ih member
    · simp only [not_forall, not_not] at other
      obtain ⟨newest, rfl⟩ := other
      obtain ⟨name, _, known⟩ := latest.added (run {} history) newest
      exact ⟨name, known⟩

theorem run_missing (latest : Latest view missing adds) (history : List Request) (cause : Fault) :
    Reply.ofLabel (view (run {} history)) = .fault cause ↔
      cause = missing ∧ ∀ text, adds text ∉ history := by
  by_cases never : ∀ text, adds text ∉ history
  · rw [latest.run_kept {} never, latest.start]
    simp [Reply.ofLabel, never, eq_comm]
  · simp only [not_forall, not_not] at never
    obtain ⟨text, member⟩ := never
    obtain ⟨name, known⟩ := latest.run_known member
    rw [known]
    constructor
    · intro impossible
      cases impossible
    · intro absent
      exact absurd member (absent.2 text)

end Latest

/-- The pool and the listing after any history. The text added as number `k`, be it a literal or a
pause string, gets the label `SLk` and the two lines of that label, and no label is given twice;
whatever else is written, lines are only added at the end. The label of a node is the one given
with its latest literal, the label of the pause string the one given with the latest pause string,
and what was never added has none. -/
theorem pool_follows_history :
    (∀ (before : List Request) (r : Request) (text : String), r.pooled? = some text →
      (run {} before).reply r = .label ("SL" ++ toString (pooledIn before)) ∧
      (run {} (before ++ [r])).listing.lines = (run {} before).listing.lines ++
        ["SL" ++ toString (pooledIn before) ++ ":",
          "\t.ascii \"" ++ StringPool.withoutQuotes text ++ "\\0\""]) ∧
    (∀ (before : List Request) (r : Request), r.pooled? = none →
      (run {} (before ++ [r])).listing.lines =
        (run {} before).listing.lines ++ r.written (pooledIn before)) ∧
    (∀ before later : List Request,
      (run {} before).listing.lines <+: (run {} (before ++ later)).listing.lines) ∧
    (∀ (before between : List Request) (r s : Request),
      r.pooled?.isSome = true → s.pooled?.isSome = true →
      (run {} before).reply r ≠ (run {} (before ++ r :: between)).reply s) ∧
    (∀ node : NodeId,
      (∀ (before : List Request) (text : String) (later : List Request),
        (∀ other, Request.addLiteral ⟨node, other⟩ ∉ later) →
        (run {} (before ++ .addLiteral ⟨node, text⟩ :: later)).reply (.labelAt node) =
          (run {} before).reply (.addLiteral ⟨node, text⟩)) ∧
      (∀ (history : List Request) (cause : Fault),
        (run {} history).reply (.labelAt node) = .fault cause ↔
          cause = .literalNotPooled node ∧ ∀ text, Request.addLiteral ⟨node, text⟩ ∉ history) ∧
      (∀ (history : List Request) (command : String),
        (run {} (history ++ [.addPause command])).reply (.labelAt node) =
          (run {} history).reply (.labelAt node))) ∧
    (∀ (before : List Request) (command : String) (later : List Request),
      (∀ other, Request.addPause other ∉ later) →
      (run {} (before ++ .addPause command :: later)).reply .pauseLabel =
        (run {} before).reply (.addPause command)) ∧
    (∀ (history : List Request) (cause : Fault),
      (run {} history).reply .pauseLabel = .fault cause ↔
        cause = .pauseNotPooled ∧ ∀ command, Request.addPause command ∉ history) := by
  refine ⟨?added, ?other, ?kept, ?distinct, ?nodes, ?pause, ?noPause⟩
  case added =>
    intro before r text pooled
    constructor
    · exact reply_run before pooled
    · rw [lines_run_one, written_pooled _ pooled]
      rfl
  case other =>
    intro before r _
    exact lines_run_one before r
  case kept =>
    intro before later
    rw [run_append]
    exact lines_run _ later
  case distinct =>
    intro before between r s first second
    obtain ⟨text, given⟩ := Option.isSome_iff_exists.1 first
    obtain ⟨other, next⟩ := Option.isSome_iff_exists.1 second
    exact reply_run_ne before between given next
  case nodes =>
    intro node
    refine ⟨?latest, (latest_node node).run_missing, ?untouched⟩
    case latest =>
      intro before text later others
      exact (latest_node node).run_added before text others
    case untouched =>
      intro history command
      have kept := StringPool.labelAt_addPause (run {} history).strings command node
      rw [run_append]
      exact congrArg Reply.ofLabel kept
  case pause =>
    intro before command later others
    exact latest_pause.run_added before command others
  case noPause => exact latest_pause.run_missing

/-- Node 7 and a pause string have been added, and a line looks like a label. -/
def pooledBefore : List Request :=
  [.emit "\t.data", .addLiteral ⟨⟨7⟩, "a"⟩, .addPause "pause", .emit "SL9:"]

/-- Node 7 once more, with quotes in its text. -/
def quotedAgain : Request := .addLiteral ⟨⟨7⟩, "\"b\""⟩

def pauseAgain : Request := .addPause "a"

theorem pool_follows_history_repeated :
    (run {} (pooledBefore ++ [quotedAgain])).listing.lines =
      (run {} pooledBefore).listing.lines ++ ["SL2:", "\t.ascii \"b\\0\""] ∧
    (run {} (pooledBefore ++ [Request.emit "SL2:"])).listing.lines =
      (run {} pooledBefore).listing.lines ++ ["SL2:"] ∧
    (run {} (pooledBefore ++ quotedAgain :: [pauseAgain])).reply (.labelAt ⟨7⟩) = .label "SL2" ∧
    (run {} (pooledBefore ++ pauseAgain :: [quotedAgain])).reply .pauseLabel = .label "SL2" ∧
    (run {} pooledBefore).reply pauseAgain ≠
      (run {} (pooledBefore ++ pauseAgain :: [quotedAgain])).reply pauseAgain := by
  obtain ⟨added, other, -, distinct, nodes, pause, -⟩ := pool_follows_history
  have label : "SL" ++ toString (pooledIn pooledBefore) = "SL2" := by decide
  have quoted := added pooledBefore quotedAgain "\"b\"" rfl
  have paused := added pooledBefore pauseAgain "a" rfl
  rw [label] at quoted paused
  refine ⟨quoted.2, other pooledBefore (.emit "SL2:") rfl, ?node, ?pause, ?distinct⟩
  case node =>
    have latest := (nodes ⟨7⟩).1 pooledBefore "\"b\"" [pauseAgain] (by simp [pauseAgain])
    exact latest.trans quoted.1
  case pause =>
    have latest := pause pooledBefore "a" [quotedAgain] (by simp [quotedAgain])
    exact latest.trans paused.1
  case distinct =>
    exact distinct pooledBefore [quotedAgain] pauseAgain pauseAgain rfl rfl

end Draft

end Ia32Backend
