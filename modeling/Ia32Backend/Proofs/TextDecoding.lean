import Ia32Backend.Asm.Listing
import Ia32Backend.Proofs.AttReader

/-!
Rendered text determines the instructions. Only the text of a string directive may hold what ends a
line, and then no line feed, so lines are told apart at line feeds; a carriage return before one is
part of the separator, since no line ends in one.
-/
namespace Ia32Backend

namespace AsmLine

/-- Characters of a line other than a string directive. -/
def TextChar (c : Char) : Prop := WordChar c ∨ c ∈ ['\t', ' ', ',', ':']

instance (c : Char) : Decidable (TextChar c) := inferInstanceAs (Decidable (_ ∨ _))

theorem args_chars {args : List String} (words : ∀ arg ∈ args, IsWord arg) :
    ∀ c ∈ (", ".intercalate args).toList, TextChar c := by
  intro c member
  induction args with
  | nil => simp at member
  | cons arg rest ih =>
    have first : c ∈ arg.toList → TextChar c := fun inside =>
      .inl (words arg List.mem_cons_self c inside)
    cases rest with
    | nil =>
      rw [String.intercalate_singleton] at member
      exact first member
    | cons next rest =>
      rw [String.intercalate_cons_cons, String.toList_append, String.toList_append] at member
      simp only [List.mem_append] at member
      obtain (inside | separator) | later := member
      · exact first inside
      · have : c = ',' ∨ c = ' ' := by simpa using separator
        obtain rfl | rfl := this <;> decide
      · exact ih (fun word member => words word (List.mem_cons_of_mem arg member)) later

theorem op_chars {mnemonic : String} {args : List String} (word : IsWord mnemonic)
    (words : ∀ arg ∈ args, IsWord arg) :
    ∀ c ∈ (AsmLine.op mnemonic args).text.toList, TextChar c := by
  intro c member
  cases args with
  | nil =>
    rw [toList_text_bare] at member
    obtain rfl | inside := List.mem_cons.mp member
    · decide
    · exact .inl (word c inside)
  | cons arg rest =>
    rw [toList_text_op] at member
    simp only [List.mem_cons, List.mem_append] at member
    obtain rfl | inside | rfl | later := member
    · decide
    · exact .inl (word c inside)
    · decide
    · exact args_chars words c later

theorem label_chars {name : String} (word : IsWord name) :
    ∀ c ∈ (AsmLine.label name).text.toList, TextChar c := by
  intro c member
  rw [toList_text_label] at member
  obtain inside | colon := List.mem_append.mp member
  · exact .inl (word c inside)
  · exact List.mem_singleton.mp colon ▸ by decide

theorem toList_text_ascii (text : String) :
    (AsmLine.op ".ascii" ["\"" ++ text ++ "\\0\""]).text.toList =
      "\t.ascii \"".toList ++ text.toList ++ "\\0\"".toList := by
  simp [toList_text_op]

theorem Plain.no_line_feed {l : AsmLine} (plain : l.Plain) : '\n' ∉ l.text.toList := by
  cases plain with
  | label word => exact fun member => absurd (label_chars word _ member) (by decide)
  | op _ word words => exact fun member => absurd (op_chars word words _ member) (by decide)
  | ascii clear => simp [toList_text_ascii, clear]

theorem Plain.no_return_last {l : AsmLine} (plain : l.Plain) :
    l.text.toList.getLast? ≠ some '\r' := by
  cases plain with
  | label word =>
    exact fun last => absurd (label_chars word _ (List.mem_of_getLast? last)) (by decide)
  | op _ word words =>
    exact fun last => absurd (op_chars word words _ (List.mem_of_getLast? last)) (by decide)
  | ascii =>
    rw [toList_text_ascii, List.getLast?_append]
    simp

end AsmLine

/-- A line without the carriage return of its separator, if it has one. -/
def dropReturn (line : List Char) : List Char :=
  if line.getLast? = some '\r' then line.dropLast else line

theorem dropReturn_text {l : AsmLine} (plain : l.Plain) :
    dropReturn l.text.toList = l.text.toList := if_neg plain.no_return_last

theorem dropReturn_return (line : List Char) : dropReturn (line ++ ['\r']) = line := by
  simp [dropReturn]

theorem splitOn_lines {lines : List (List Char)} (clear : ∀ line ∈ lines, '\n' ∉ line) :
    (lines.flatMap (· ++ ['\n'])).splitOn '\n' = lines ++ [[]] := by
  induction lines with
  | nil => rfl
  | cons line rest ih =>
    have first := clear line List.mem_cons_self
    rw [List.flatMap_cons, List.append_assoc, List.singleton_append,
      List.splitOn_append_cons_self_of_not_mem first,
      ih fun later member => clear later (List.mem_cons_of_mem line member), List.cons_append]

def Instr.read? (line : List Char) : Option Instr := Instr.ofLine? (AsmLine.read line)

theorem Instr.read?_text {i : Instr} (readable : i.Readable) :
    Instr.read? i.text.toList = some i := by
  rw [Instr.read?, Instr.text, AsmLine.read_text (line_plain readable), ofLine?_line readable]

namespace Listing

/-- The instructions of a text, whichever of the two separators ends its lines. -/
def decode? (text : String) : Option (List Instr) :=
  (text.toList.splitOn '\n').dropLast.mapM fun line => Instr.read? (dropReturn line)

theorem toList_render_append (code : List Instr) (ending : String) :
    ((append {} code).render (ending ++ "\n")).toList =
      (code.map fun i => i.text.toList ++ ending.toList).flatMap (· ++ ['\n']) := by
  simp [render, append, List.flatMap_map]

theorem mapM_read?_dropReturn {ending : List Char} (known : ending = [] ∨ ending = ['\r'])
    {code : List Instr} (readable : ∀ i ∈ code, i.Readable) :
    (code.map fun i => i.text.toList ++ ending).mapM (fun line => Instr.read? (dropReturn line)) =
      some code := by
  induction code with
  | nil => rfl
  | cons i rest ih =>
    have first := readable i List.mem_cons_self
    have dropped : dropReturn (i.text.toList ++ ending) = i.text.toList := by
      obtain rfl | rfl := known
      · rw [List.append_nil]
        exact dropReturn_text (Instr.line_plain first)
      · exact dropReturn_return _
    rw [List.map_cons, List.mapM_cons, dropped, Instr.read?_text first,
      ih fun later member => readable later (List.mem_cons_of_mem i member)]
    rfl

theorem decode?_render (ending : String) (known : ending.toList = [] ∨ ending.toList = ['\r'])
    {code : List Instr} (readable : ∀ i ∈ code, i.Readable) :
    decode? ((append {} code).render (ending ++ "\n")) = some code := by
  have clear : ∀ line ∈ code.map fun i => i.text.toList ++ ending.toList, '\n' ∉ line := by
    intro line member
    obtain ⟨i, inside, rfl⟩ := List.mem_map.mp member
    have text : '\n' ∉ i.text.toList := (Instr.line_plain (readable i inside)).no_line_feed
    obtain empty | ret := known
    · simpa [empty] using text
    · simpa [ret] using text
  rw [decode?, toList_render_append, splitOn_lines clear, List.dropLast_concat,
    mapM_read?_dropReturn known readable]

end Listing

/-- Rendered text has a reader, so it determines the instructions. Names are those of labels, jumps,
calls and directives and those whose addresses are taken. -/
theorem text_determines_code {separator : String}
    (ending : separator = "\n" ∨ separator = "\r\n") :
    (∀ code : List Instr, (∀ i ∈ code, i.Readable) →
      Listing.decode? ((Listing.append {} code).render separator) = some code) ∧
    ∀ a b : List Instr, (∀ i ∈ a, i.Readable) → (∀ i ∈ b, i.Readable) →
      (Listing.append {} a).render separator = (Listing.append {} b).render separator → a = b := by
  have reads : ∀ code : List Instr, (∀ i ∈ code, i.Readable) →
      Listing.decode? ((Listing.append {} code).render separator) = some code := by
    intro code readable
    obtain rfl | rfl := ending
    · exact Listing.decode?_render "" (.inl rfl) readable
    · exact Listing.decode?_render "\r" (.inr (by simp)) readable
  refine ⟨reads, fun a b readableA readableB same => ?_⟩
  have decoded := congrArg Listing.decode? same
  rw [reads a readableA, reads b readableB] at decoded
  exact Option.some.inj decoded

/-- Lines that look alike: a product of one factor and of two, a number and the address of a label,
a register without a byte name, a displacement left out, a text that could be arguments. -/
def lookalikes : List Instr :=
  [.mulByte (.imm 1), .arith .imul .byte (.imm 1) .acc, .push (.imm (-7)), .push (.addr "L7"),
    .mov .byte (.reg .si) (.frame 0), .label "L7", .ascii "%al, $7\r"]

theorem lookalikes_readable : ∀ i ∈ lookalikes, i.Readable := by
  have name : IsName "L7" := ⟨by simp, by simp [NameChar], by simp⟩
  have named : ∀ i ∈ lookalikes, ∀ name ∈ i.addresses ++ i.symbols, name = "L7" := by
    simp [lookalikes, Instr.addresses, Instr.operands, Instr.symbols, Operand.label]
  intro i member
  refine ⟨fun other written => named i member other written ▸ name, fun text string => ?_⟩
  subst string
  simp [lookalikes] at member
  simp [member]

theorem text_determines_lookalikes :
    Listing.decode? ("\timulb $1\r\n\timulb $1, %al\r\n\tpushl $-7\r\n\tpushl $L7\r\n" ++
      "\tmovb %esi, (%ebp)\r\nL7:\r\n\t.ascii \"%al, $7\r\\0\"\r\n") = some lookalikes ∧
    (Listing.append {} lookalikes.reverse).render "\n" ≠
      (Listing.append {} lookalikes).render "\n" := by
  have reversed : ∀ i ∈ lookalikes.reverse, i.Readable := fun i member =>
    lookalikes_readable i (List.mem_reverse.mp member)
  have text : (Listing.append {} lookalikes).render "\r\n" =
      "\timulb $1\r\n\timulb $1, %al\r\n\tpushl $-7\r\n\tpushl $L7\r\n" ++
      "\tmovb %esi, (%ebp)\r\nL7:\r\n\t.ascii \"%al, $7\r\\0\"\r\n" := by
    decide
  constructor
  · rw [← text]
    exact (text_determines_code (.inr rfl)).1 lookalikes lookalikes_readable
  · intro same
    have equal := (text_determines_code (.inl rfl)).2 _ _ reversed lookalikes_readable same
    exact absurd equal (by decide)

end Ia32Backend
