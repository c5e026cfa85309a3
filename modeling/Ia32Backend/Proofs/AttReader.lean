import Ia32Backend.Asm.Att
import Ia32Backend.Proofs.BranchLabels
import Mathlib.Data.List.Nodup
import Mathlib.Data.List.TakeWhile

/-!
A reader of AT&T text. A line is told apart by its first character, its mnemonic ends at the first
blank, and its arguments at commas. An operand is told apart by its first character, except that an
immediate and the address of a label both start with `$`: there the next one decides, which is why
no name may start with a digit.
-/
namespace Ia32Backend

/-! ### Numbers and names -/

def readInt : List Char → Int
  | '-' :: digits => -(Nat.ofDigitChars 10 digits 0 : Int)
  | digits => (Nat.ofDigitChars 10 digits 0 : Int)

def NumeralChar (c : Char) : Prop := c.isDigit = true ∨ c = '-'

instance (c : Char) : Decidable (NumeralChar c) := inferInstanceAs (Decidable (_ ∨ _))

theorem NumeralChar.other {c d : Char} (numeral : NumeralChar c) (not : ¬ NumeralChar d) : c ≠ d :=
  fun same => not (same ▸ numeral)

theorem ofDigitChars_repr (n : Nat) : Nat.ofDigitChars 10 n.repr.toList 0 = n := by
  rw [Nat.toList_repr, Nat.ofDigitChars_toDigits (by decide) (by decide)]

theorem repr_digits {n : Nat} : ∀ c ∈ n.repr.toList, c.isDigit = true :=
  Nat.toString_eq_repr ▸ toString_digits n

theorem toList_repr_int (n : Int) :
    n.repr.toList =
      if 0 ≤ n then n.toNat.repr.toList else '-' :: (-n).toNat.repr.toList := by
  rw [Int.repr_eq_if]
  split
  · rfl
  · rw [String.toList_append]
    rfl

theorem readInt_repr (n : Int) : readInt n.repr.toList = n := by
  rw [toList_repr_int]
  split
  case isTrue =>
    have unsigned : ∀ rest, n.toNat.repr.toList ≠ '-' :: rest := by
      intro rest signed
      have digit := repr_digits '-' (signed ▸ List.mem_cons_self)
      exact absurd digit (by decide)
    rw [readInt.eq_2 _ unsigned, ofDigitChars_repr]
    omega
  case isFalse =>
    rw [readInt.eq_1, ofDigitChars_repr]
    omega

theorem repr_numeral (n : Int) : ∀ c ∈ n.repr.toList, NumeralChar c := by
  intro c member
  rw [toList_repr_int] at member
  split at member
  · exact .inl (repr_digits c member)
  · obtain rfl | later := List.mem_cons.mp member
    · exact .inr rfl
    · exact .inl (repr_digits c later)

theorem repr_starts (n : Int) : ∃ c rest, n.repr.toList = c :: rest ∧ NumeralChar c := by
  have written : n.repr.toList ≠ [] := by
    rw [toList_repr_int]
    split
    · simp
    · exact List.cons_ne_nil _ _
  obtain ⟨c, rest, starts⟩ := List.exists_cons_of_ne_nil written
  exact ⟨c, rest, starts, repr_numeral n c (starts ▸ List.mem_cons_self)⟩

/-- Letters and digits are those of ASCII. -/
def NameChar (c : Char) : Prop := c.isAlphanum = true ∨ c = '_' ∨ c = '.'

instance (c : Char) : Decidable (NameChar c) := inferInstanceAs (Decidable (_ ∨ _))

structure IsName (name : String) : Prop where
  nonempty : name.toList ≠ []
  chars : ∀ c ∈ name.toList, NameChar c
  start : ∀ c ∈ name.toList.head?, c.isDigit = false

/-! ### Operands -/

def Reg.all : List Reg := [.ax, .bx, .cx, .dx, .si, .di, .bp, .sp]

def Reg.read? (w : Width) (name : String) : Option Reg := Reg.all.find? fun r => r.name w = name

theorem Reg.read?_name (w : Width) (r : Reg) : Reg.read? w (r.name w) = some r := by
  cases w <;> cases r <;> decide

/-- A displacement that is left out reads as no digits, which is zero. -/
def Operand.read? (w : Width) : List Char → Option Operand
  | '%' :: name => (Reg.read? w (String.ofList name)).map .reg
  | '$' :: value =>
    some (if value.head?.any (NumeralChar ·) then .imm (Int32.ofInt (readInt value))
      else .addr (String.ofList value))
  | cell =>
    let base := ((cell.dropWhile (· ≠ '(')).drop 2).dropLast
    (Reg.read? .long (String.ofList base)).map
      (.mem · (Int32.ofInt (readInt (cell.takeWhile (· ≠ '(')))))

theorem Operand.read?_cell (w : Width) (base : Reg) {disp : List Char}
    (numeral : ∀ c ∈ disp, NumeralChar c) :
    Operand.read? w (disp ++ '(' :: '%' :: (base.longName.toList ++ [')'])) =
      some (.mem base (Int32.ofInt (readInt disp))) := by
  have inside : ∀ c ∈ disp, decide (c ≠ '(') = true := fun c member =>
    decide_eq_true ((numeral c member).other (by decide))
  have first : ∀ c rest, disp ++ '(' :: '%' :: (base.longName.toList ++ [')']) = c :: rest →
      c ≠ '%' ∧ c ≠ '$' := by
    intro c rest starts
    cases disp with
    | nil =>
      obtain ⟨rfl, -⟩ := List.cons.inj starts
      decide
    | cons d _ =>
      obtain ⟨rfl, -⟩ := List.cons.inj starts
      have numeral := numeral d List.mem_cons_self
      exact ⟨numeral.other (by decide), numeral.other (by decide)⟩
  have long : Reg.read? .long base.longName = some base := Reg.read?_name .long base
  rw [Operand.read?.eq_3 _ _ (fun _ starts => (first _ _ starts).1 rfl)
    (fun _ starts => (first _ _ starts).2 rfl),
    List.takeWhile_append_of_pos inside, List.dropWhile_append_of_pos inside]
  simp [long]

theorem Operand.read?_text (w : Width) (o : Operand) (named : ∀ name ∈ o.label, IsName name) :
    Operand.read? w (o.text w).toList = some o := by
  cases o with
  | reg r => simp [Operand.text, Operand.read?, Reg.read?_name]
  | mem base disp =>
    by_cases zero : disp = 0
    · simpa [Operand.text, zero, readInt] using Operand.read?_cell w base (List.forall_mem_nil _)
    · have read := Operand.read?_cell w base (repr_numeral disp.toInt)
      rw [readInt_repr, Int32.ofInt_toInt] at read
      simpa [Operand.text, zero] using read
  | imm value =>
    obtain ⟨c, rest, starts, numeral⟩ := repr_starts value.toInt
    have number : value.toInt.repr.toList.head?.any (NumeralChar ·) = true := by
      simp [starts, numeral]
    simp [Operand.text, Operand.read?, number, readInt_repr]
  | addr label =>
    obtain ⟨written, chars, start⟩ := named label rfl
    obtain ⟨c, rest, starts⟩ := List.exists_cons_of_ne_nil written
    have letter : ¬ NumeralChar c := by
      rintro (digit | sign)
      · simp [start c (by simp [starts])] at digit
      · exact absurd (chars c (starts ▸ List.mem_cons_self)) (sign ▸ by decide)
    have word : label.toList.head?.any (NumeralChar ·) = false := by
      simp [starts, letter]
    simp [Operand.text, Operand.read?, word]

-- A label that starts with a digit would read as a number.
example : (Operand.addr "5").text .long = (Operand.imm 5).text .long := by decide

/-! ### Lines -/

def readArgs (chars : List Char) : List String :=
  match chars.splitOn ',' with
  | [] => []
  | first :: more => String.ofList first :: more.map fun arg => String.ofList (arg.drop 1)

/-- The text of a string directive may hold blanks and commas, so it is not split. -/
def AsmLine.read : List Char → AsmLine
  | '\t' :: body =>
    let mnemonic := String.ofList (body.takeWhile (· ≠ ' '))
    match body.dropWhile (· ≠ ' ') with
    | [] => .op mnemonic []
    | _ :: rest =>
      .op mnemonic (if mnemonic = ".ascii" then [String.ofList rest] else readArgs rest)
  | line => .label (String.ofList line.dropLast)

/-- Characters of mnemonics, names and operands. -/
def WordChar (c : Char) : Prop := NameChar c ∨ c ∈ ['%', '$', '-', '(', ')']

instance (c : Char) : Decidable (WordChar c) := inferInstanceAs (Decidable (_ ∨ _))

def IsWord (word : String) : Prop := ∀ c ∈ word.toList, WordChar c

theorem NumeralChar.word {c : Char} (numeral : NumeralChar c) : WordChar c := by
  obtain digit | rfl := numeral
  · exact .inl (.inl (by simp [Char.isAlphanum, digit]))
  · decide

theorem IsWord.append {a b : String} (wordA : IsWord a) (wordB : IsWord b) : IsWord (a ++ b) := by
  intro c member
  rw [String.toList_append] at member
  exact (List.mem_append.mp member).elim (wordA c) (wordB c)

theorem IsWord.clear {word : String} (h : IsWord word) {c : Char} (not : ¬ WordChar c) :
    c ∉ word.toList :=
  fun member => not (h c member)

theorem IsWord.no_blank {word : String} (h : IsWord word) :
    ∀ c ∈ word.toList, decide (c ≠ ' ') = true :=
  fun _ member => decide_eq_true fun blank => h.clear (by decide) (blank ▸ member)

theorem IsName.word {name : String} (named : IsName name) : IsWord name :=
  fun c member => .inl (named.chars c member)

theorem Reg.name_word (w : Width) (r : Reg) : IsWord (r.name w) := by
  cases w <;> cases r <;> simp [Reg.name, Reg.longName, IsWord, WordChar, NameChar]

theorem repr_word (n : Int) : IsWord n.repr := fun c member => (repr_numeral n c member).word

theorem Operand.text_word (w : Width) (o : Operand) (named : ∀ name ∈ o.label, IsName name) :
    IsWord (o.text w) := by
  have percent : IsWord "%" := by simp [IsWord, WordChar]
  have dollar : IsWord "$" := by simp [IsWord, WordChar]
  have opens : IsWord "(%" := by simp [IsWord, WordChar]
  have closes : IsWord ")" := by simp [IsWord, WordChar]
  cases o with
  | reg r => exact percent.append (r.name_word w)
  | mem base disp =>
    have number : IsWord (if disp = 0 then "" else toString disp.toInt) := by
      split
      · simp [IsWord]
      · exact repr_word disp.toInt
    exact ((number.append opens).append (base.name_word .long)).append closes
  | imm value => exact dollar.append (repr_word value.toInt)
  | addr label => exact dollar.append (named label rfl).word

/-- Lines that can be read back: words, or the text of a string directive on one line. -/
inductive AsmLine.Plain : AsmLine → Prop where
  | label {name : String} : IsWord name → Plain (.label name)
  | op {mnemonic : String} {args : List String} :
      mnemonic ≠ ".ascii" → IsWord mnemonic → (∀ arg ∈ args, IsWord arg) → Plain (.op mnemonic args)
  | ascii {text : String} : '\n' ∉ text.toList → Plain (.op ".ascii" ["\"" ++ text ++ "\\0\""])

/-- Every argument but the first keeps the blank that follows its comma. -/
theorem splitOn_args (arg : String) (args : List String)
    (words : ∀ word ∈ arg :: args, ',' ∉ word.toList) :
    (", ".intercalate (arg :: args)).toList.splitOn ',' =
      arg.toList :: args.map (' ' :: ·.toList) := by
  induction args generalizing arg with
  | nil => simpa using List.splitOn_eq_singleton (words arg List.mem_cons_self)
  | cons next rest ih =>
    have clear := words arg List.mem_cons_self
    have tail := ih next fun word member => words word (List.mem_cons_of_mem arg member)
    rw [String.intercalate_cons_cons, String.toList_append, String.toList_append,
      List.append_assoc]
    have separator : ", ".toList = [',', ' '] := by simp
    rw [separator, List.cons_append, List.cons_append, List.nil_append,
      List.splitOn_append_cons_self_of_not_mem clear, List.splitOn_cons_eq_if_modifyHead, tail]
    simp

theorem readArgs_intercalate {args : List String} (filled : args ≠ [])
    (words : ∀ word ∈ args, ',' ∉ word.toList) :
    readArgs (", ".intercalate args).toList = args := by
  obtain ⟨arg, rest, rfl⟩ := List.exists_cons_of_ne_nil filled
  rw [readArgs, splitOn_args arg rest words]
  simp [Function.comp_def]

namespace AsmLine

theorem read_label {name : String} (word : IsWord name) :
    AsmLine.read (name.toList ++ [':']) = .label name := by
  have margin : ∀ body, name.toList ++ [':'] ≠ '\t' :: body := by
    intro body starts
    cases chars : name.toList with
    | nil => simp [chars] at starts
    | cons c rest =>
      rw [chars] at starts
      obtain ⟨rfl, -⟩ := List.cons.inj starts
      exact word.clear (by decide) (chars ▸ List.mem_cons_self)
  rw [AsmLine.read.eq_2 _ margin, List.dropLast_concat, String.ofList_toList]

theorem read_bare {mnemonic : String} (word : IsWord mnemonic) :
    AsmLine.read ('\t' :: mnemonic.toList) = .op mnemonic [] := by
  rw [AsmLine.read, List.dropWhile_eq_nil_iff.mpr word.no_blank,
    List.takeWhile_eq_self_iff.mpr word.no_blank, String.ofList_toList]

theorem read_op {mnemonic : String} (word : IsWord mnemonic) (rest : List Char) :
    AsmLine.read ('\t' :: (mnemonic.toList ++ ' ' :: rest)) =
      .op mnemonic (if mnemonic = ".ascii" then [String.ofList rest] else readArgs rest) := by
  have mnemonicOnly : (mnemonic.toList ++ ' ' :: rest).takeWhile (· ≠ ' ') = mnemonic.toList := by
    rw [List.takeWhile_append_of_pos word.no_blank]
    simp
  have args : (mnemonic.toList ++ ' ' :: rest).dropWhile (· ≠ ' ') = ' ' :: rest := by
    rw [List.dropWhile_append_of_pos word.no_blank]
    simp
  rw [AsmLine.read, args, mnemonicOnly, String.ofList_toList]

theorem toList_text_op (mnemonic arg : String) (args : List String) :
    (AsmLine.op mnemonic (arg :: args)).text.toList =
      '\t' :: (mnemonic.toList ++ ' ' :: (", ".intercalate (arg :: args)).toList) := by
  simp [AsmLine.text]

theorem toList_text_bare (mnemonic : String) :
    (AsmLine.op mnemonic []).text.toList = '\t' :: mnemonic.toList := by
  simp [AsmLine.text]

theorem toList_text_label (name : String) :
    (AsmLine.label name).text.toList = name.toList ++ [':'] := by
  simp [AsmLine.text]

theorem read_text {l : AsmLine} (plain : l.Plain) : AsmLine.read l.text.toList = l := by
  cases plain with
  | label word => rw [toList_text_label, read_label word]
  | @op mnemonic args other word words =>
    cases args with
    | nil => rw [toList_text_bare, read_bare word]
    | cons arg rest =>
      have clear : ∀ word ∈ arg :: rest, ',' ∉ word.toList :=
        fun word member => (words word member).clear (by decide)
      rw [toList_text_op, read_op word, if_neg other,
        readArgs_intercalate (List.cons_ne_nil arg rest) clear]
  | ascii line =>
    have word : IsWord ".ascii" := by simp [IsWord, WordChar, NameChar]
    rw [toList_text_op, read_op word, if_pos rfl, String.intercalate_singleton,
      String.ofList_toList]

end AsmLine

/-! ### Instructions -/

def Width.all : List Width := [.byte, .long]

def Cond.all : List Cond := [.e, .ne, .g, .ge, .l, .le]

def ArithOp.all : List ArithOp := [.add, .sub, .imul, .and, .or]

/-- What follows a mnemonic, and the instruction that it makes. -/
inductive Form where
  | plain (i : Instr)
  | named (make : String → Instr)
  | unary (w : Width) (make : Operand → Instr)
  | binary (w v : Width) (make : Operand → Operand → Instr)

namespace Form

def arity : Form → Nat
  | .plain _ => 0
  | .named _ => 1
  | .unary _ _ => 1
  | .binary _ _ _ => 2

def read? : Form → List String → Option Instr
  | .plain i, [] => some i
  | .named make, [name] => some (make name)
  | .unary w make, [x] => (Operand.read? w x.toList).map make
  | .binary w v make, [x, y] => do
    let src ← Operand.read? w x.toList
    let dst ← Operand.read? v y.toList
    return make src dst
  | _, _ => none

/-- The text between the opening quote and the zero byte. -/
def unquote (arg : String) : String :=
  let body := arg.toList.tail
  String.ofList (body.take (body.length - 3))

def sized (stem : String) (form : Width → Form) : List (String × Form) :=
  Width.all.map fun w => (stem ++ w.suffix, form w)

def conditional (stem : String) (form : Cond → Form) : List (String × Form) :=
  Cond.all.map fun c => (stem ++ c.suffix, form c)

theorem mem_sized (stem : String) (form : Width → Form) (w : Width) :
    (stem ++ w.suffix, form w) ∈ sized stem form :=
  List.mem_map.mpr ⟨w, by cases w <;> decide, rfl⟩

theorem mem_conditional (stem : String) (form : Cond → Form) (c : Cond) :
    (stem ++ c.suffix, form c) ∈ conditional stem form :=
  List.mem_map.mpr ⟨c, by cases c <;> decide, rfl⟩

/-- The form of each mnemonic. Only `imulb` has two. -/
def all : List (String × Form) :=
  [("movsbl", .binary .byte .long .movSigned), ("movzbl", .binary .byte .long .movZero),
    ("leal", .binary .long .long .lea), ("imulb", .unary .byte .mulByte), ("cltd", .plain .cltd),
    ("cbtw", .plain .cbtw), ("pushl", .unary .long .push), ("popl", .unary .long .pop),
    ("call", .named .call), ("jmp", .named .jmp), ("leave", .plain .leave), ("ret", .plain .ret),
    (".globl", .named .globl), (".ascii", .named fun arg => .ascii (unquote arg))] ++
  sized "mov" (fun w => .binary w w (.mov w)) ++
  (ArithOp.all.flatMap fun op => sized op.mnemonic fun w => .binary w w (.arith op w)) ++
  sized "idiv" (fun w => .unary w (.idiv w)) ++
  sized "neg" (fun w => .unary w (.neg w)) ++
  sized "cmp" (fun w => .binary w w (.cmp w)) ++
  sized "xchg" (fun w => .binary w w (.xchg w)) ++
  conditional "set" (fun c => .unary .byte (.set c)) ++
  conditional "j" (fun c => .named (.jump c))

/-- A mnemonic and the number of its arguments tell the form. -/
theorem all_distinct : (all.map fun entry => (entry.1, entry.2.arity)).Nodup := by
  simp [all, sized, conditional, Width.all, Cond.all, ArithOp.all, arity, Width.suffix,
    Cond.suffix, ArithOp.mnemonic]

theorem unquote_quoted (text : String) : unquote ("\"" ++ text ++ "\\0\"") = text := by
  simp [unquote]

theorem mnemonics_words : ∀ entry ∈ all, IsWord entry.1 := by
  simp [all, sized, conditional, Width.all, Cond.all, ArithOp.all, Width.suffix, Cond.suffix,
    ArithOp.mnemonic, IsWord, WordChar, NameChar]

end Form

/-- The name that an instruction is about, if any. -/
def Instr.symbols : Instr → List String
  | .call name => [name]
  | .jmp name => [name]
  | .jump _ name => [name]
  | .label name => [name]
  | .globl name => [name]
  | _ => []

/-- What lets a line be read back. -/
structure Instr.Readable (i : Instr) : Prop where
  names : ∀ name ∈ i.addresses ++ i.symbols, IsName name
  texts : ∀ text, i = .ascii text → '\n' ∉ text.toList

theorem Instr.Readable.operand {i : Instr} (readable : i.Readable) {o : Operand}
    (member : o ∈ i.operands) : ∀ name ∈ o.label, IsName name := fun name labelled =>
  readable.names name (List.mem_append_left _ (List.mem_filterMap.mpr ⟨o, member, labelled⟩))

def Instr.ofLine? : AsmLine → Option Instr
  | .label name => some (.label name)
  | .op mnemonic args =>
    (Form.all.find? fun entry => (entry.1, entry.2.arity) = (mnemonic, args.length)).bind
      (·.2.read? args)

namespace Instr

theorem ofLine?_op {mnemonic : String} {form : Form} {args : List String}
    (known : (mnemonic, form) ∈ Form.all) (count : form.arity = args.length) :
    ofLine? (.op mnemonic args) = form.read? args := by
  rw [ofLine?]
  -- The mnemonic alone would not do: one and two factors of a byte product share theirs.
  cases found : Form.all.find? fun entry => (entry.1, entry.2.arity) = (mnemonic, args.length) with
  | none =>
    have other := List.find?_eq_none.mp found _ known
    simp [count] at other
  | some entry =>
    have key : (entry.1, entry.2.arity) = (mnemonic, args.length) := by
      simpa using List.find?_some found
    have member := List.mem_of_find?_eq_some found
    have same : entry = (mnemonic, form) :=
      List.inj_on_of_nodup_map Form.all_distinct member known (by simp [key, count])
    rw [same]
    rfl

section
variable {mnemonic : String} {w v : Width} {x y : Operand}

theorem ofLine?_plain {i : Instr} (known : (mnemonic, .plain i) ∈ Form.all) :
    ofLine? (.op mnemonic []) = some i := ofLine?_op known rfl

theorem ofLine?_named {make : String → Instr} (known : (mnemonic, .named make) ∈ Form.all)
    (name : String) : ofLine? (.op mnemonic [name]) = some (make name) := ofLine?_op known rfl

theorem ofLine?_unary {make : Operand → Instr} (known : (mnemonic, .unary w make) ∈ Form.all)
    (named : ∀ name ∈ x.label, IsName name) :
    ofLine? (.op mnemonic [x.text w]) = some (make x) := by
  rw [ofLine?_op known rfl, Form.read?, Operand.read?_text w x named]
  rfl

theorem ofLine?_binary {make : Operand → Operand → Instr}
    (known : (mnemonic, .binary w v make) ∈ Form.all)
    (namedX : ∀ name ∈ x.label, IsName name) (namedY : ∀ name ∈ y.label, IsName name) :
    ofLine? (.op mnemonic [x.text w, y.text v]) = some (make x y) := by
  rw [ofLine?_op known rfl, Form.read?, Operand.read?_text w x namedX,
    Operand.read?_text v y namedY]
  rfl

end

theorem ofLine?_line {i : Instr} (readable : i.Readable) : ofLine? i.line = some i := by
  have named := fun o => readable.operand (o := o)
  cases i with
  | mov w src dst =>
    have known := Form.mem_sized "mov" (fun w => .binary w w (.mov w)) w
    exact ofLine?_binary (by simp [Form.all, known]) (named src (by simp [operands]))
      (named dst (by simp [operands]))
  | movSigned src dst =>
    exact ofLine?_binary (by simp [Form.all]) (named src (by simp [operands]))
      (named dst (by simp [operands]))
  | movZero src dst =>
    exact ofLine?_binary (by simp [Form.all]) (named src (by simp [operands]))
      (named dst (by simp [operands]))
  | lea src dst =>
    exact ofLine?_binary (by simp [Form.all]) (named src (by simp [operands]))
      (named dst (by simp [operands]))
  | arith op w src dst =>
    have known : (op.mnemonic ++ w.suffix, Form.binary w w (.arith op w)) ∈
        ArithOp.all.flatMap fun op => Form.sized op.mnemonic fun w => .binary w w (.arith op w) :=
      List.mem_flatMap.mpr ⟨op, by cases op <;> decide, Form.mem_sized op.mnemonic _ w⟩
    exact ofLine?_binary (by simp only [Form.all, List.mem_append, known, true_or, or_true])
      (named src (by simp [operands])) (named dst (by simp [operands]))
  | mulByte src => exact ofLine?_unary (by simp [Form.all]) (named src (by simp [operands]))
  | idiv w src =>
    have known := Form.mem_sized "idiv" (fun w => .unary w (.idiv w)) w
    exact ofLine?_unary (by simp [Form.all, known]) (named src (by simp [operands]))
  | cltd => exact ofLine?_plain (by simp [Form.all])
  | cbtw => exact ofLine?_plain (by simp [Form.all])
  | neg w dst =>
    have known := Form.mem_sized "neg" (fun w => .unary w (.neg w)) w
    exact ofLine?_unary (by simp [Form.all, known]) (named dst (by simp [operands]))
  | cmp w src dst =>
    have known := Form.mem_sized "cmp" (fun w => .binary w w (.cmp w)) w
    exact ofLine?_binary (by simp [Form.all, known]) (named src (by simp [operands]))
      (named dst (by simp [operands]))
  | set c dst =>
    have known := Form.mem_conditional "set" (fun c => .unary .byte (.set c)) c
    exact ofLine?_unary (by simp [Form.all, known]) (named dst (by simp [operands]))
  | xchg w a b =>
    have known := Form.mem_sized "xchg" (fun w => .binary w w (.xchg w)) w
    exact ofLine?_binary (by simp [Form.all, known]) (named a (by simp [operands]))
      (named b (by simp [operands]))
  | push src => exact ofLine?_unary (by simp [Form.all]) (named src (by simp [operands]))
  | pop dst => exact ofLine?_unary (by simp [Form.all]) (named dst (by simp [operands]))
  | call target => exact ofLine?_named (by simp [Form.all]) target
  | jmp target => exact ofLine?_named (by simp [Form.all]) target
  | jump c target =>
    have known := Form.mem_conditional "j" (fun c => .named (.jump c)) c
    exact ofLine?_named (by simp [Form.all, known]) target
  | label name => rfl
  | leave => exact ofLine?_plain (by simp [Form.all])
  | ret => exact ofLine?_plain (by simp [Form.all])
  | globl name => exact ofLine?_named (by simp [Form.all]) name
  | ascii text =>
    have known : (".ascii", Form.named fun arg => .ascii (Form.unquote arg)) ∈ Form.all := by
      simp [Form.all]
    have read := ofLine?_named known ("\"" ++ text ++ "\\0\"")
    rwa [Form.unquote_quoted] at read

theorem mnemonic_word {mnemonic : String} {args : List String} {i : Instr}
    (made : ofLine? (.op mnemonic args) = some i) : IsWord mnemonic := by
  rw [ofLine?, Option.bind_eq_some_iff] at made
  obtain ⟨entry, found, -⟩ := made
  have key : entry.1 = mnemonic := by
    have := List.find?_some found
    simp only [Prod.mk.injEq, decide_eq_true_eq] at this
    exact this.1
  exact key ▸ Form.mnemonics_words entry (List.mem_of_find?_eq_some found)

/-- Arguments are operands or a symbol, except for a string directive. -/
theorem line_args {P : String → Prop} {i : Instr} {mnemonic : String} {args : List String}
    (line : i.line = .op mnemonic args) (other : mnemonic ≠ ".ascii")
    (written : ∀ o ∈ i.operands, ∀ w, P (o.text w)) (symbol : ∀ name ∈ i.symbols, P name) :
    ∀ arg ∈ args, P arg := by
  cases i <;> simp only [Instr.line, AsmLine.op.injEq, reduceCtorEq] at line <;>
    obtain ⟨rfl, rfl⟩ := line <;> simp_all [operands, symbols]

theorem line_ascii {i : Instr} {args : List String} (line : i.line = .op ".ascii" args) :
    ∃ text, i = .ascii text := by
  cases i with
  | ascii text => exact ⟨text, rfl⟩
  | mov w | idiv w | neg w | cmp w | xchg w => cases w <;> simp [Instr.line, Width.suffix] at line
  | arith op w =>
    cases op <;> cases w <;> simp [Instr.line, ArithOp.mnemonic, Width.suffix] at line
  | set c | jump c => cases c <;> simp [Instr.line, Cond.suffix] at line
  | _ => simp [Instr.line] at line

theorem line_plain {i : Instr} (readable : i.Readable) : i.line.Plain := by
  have symbol : ∀ name ∈ i.symbols, IsWord name := fun name member =>
    (readable.names name (List.mem_append_right _ member)).word
  have written : ∀ o ∈ i.operands, ∀ w, IsWord (o.text w) := fun o member w =>
    o.text_word w (readable.operand member)
  cases line : i.line with
  | label name =>
    have labelled : i = .label name := by
      cases i <;> simp_all [Instr.line]
    exact .label (symbol name (by simp [labelled, symbols]))
  | op mnemonic args =>
    by_cases other : mnemonic = ".ascii"
    · subst other
      obtain ⟨text, rfl⟩ := line_ascii line
      exact line ▸ .ascii (readable.texts text rfl)
    · -- Every mnemonic that can be looked up is a word.
      exact .op other (mnemonic_word (line ▸ ofLine?_line readable))
        (line_args line other written symbol)

end Instr

end Ia32Backend
