import AccumulatorMachine.Assembly.Program
import AccumulatorMachine.Proofs.Assembly.Chain
import AccumulatorMachine.Proofs.Assembly.Form

/-! # The meaning of a source text

What a source text stands for, said of its lines as a whole and without passes over them. A label
stands for the number of instructions before it, wherever it is used, and a constant for its
operand. `Assembles` says which program a source text is, and `Refuses` why it is none: the first
line that the lines before it do not allow, else too many instructions, else the first statement
whose operands do not fit.
-/

namespace AccumulatorMachine.Assembly
set_option autoImplicit false
open Text

/-! ## What lines contribute -/

def Line.name? : Line → Option String
  | .constant name _ | .label name _ => some name
  | .blank | .data .. | .command _ => none

/-- What a line puts into memory. -/
def Line.statement? : Line → Option Statement
  | .data address value => some (.data address value)
  | .label _ (some c) | .command c => some (.command c)
  | .blank | .constant .. | .label _ none => none

def Statement.command? : Statement → Option Command
  | .command c => some c
  | .data .. => none

def Statement.datum? : Statement → Option (Operand × Operand)
  | .command _ => none
  | .data address value => some (address, value)

/-- The names that lines define. -/
def names (ls : List Line) : List String := ls.filterMap Line.name?

def statements (ls : List Line) : List Statement := ls.filterMap Line.statement?

def commands (ls : List Line) : List Command := (statements ls).filterMap Statement.command?

def data (ls : List Line) : List (Operand × Operand) := (statements ls).filterMap Statement.datum?

@[simp] theorem names_append (ls ls' : List Line) : names (ls ++ ls') = names ls ++ names ls' :=
  List.filterMap_append

@[simp] theorem statements_append (ls ls' : List Line) :
    statements (ls ++ ls') = statements ls ++ statements ls' :=
  List.filterMap_append

@[simp] theorem commands_append (ls ls' : List Line) :
    commands (ls ++ ls') = commands ls ++ commands ls' := by
  rw [commands, statements_append, List.filterMap_append]
  rfl

/-! ## Operands -/

/-- One of the lines defines the name: a label as the number of instructions before it, a constant
as its operand. -/
inductive Defines : List Line → String → Definition → Prop
  | label {before after : List Line} {s : String} {c : Option Command} :
      Defines (before ++ .label s c :: after) s (.label (commands before).length)
  | constant {before after : List Line} {s : String} {o : Operand} :
      Defines (before ++ .constant s o :: after) s (.constant o)

/-- In the lines `ls` the operand stands for the number. -/
inductive Value (ls : List Line) : Operand → Int → Prop
  | number (n : Int) : Value ls (.number n) n
  | label {s : String} {a : Nat} : Defines ls s (.label a) → Value ls (.name s) a
  | constant {s : String} {o : Operand} {v : Int} :
      Defines ls s (.constant o) → Value ls o v → Value ls (.name s) v

/-! ## Statements -/

/-- In the lines `ls` the command is the instruction: its operand has a value that is not negative,
of which the low twelve bits count. -/
inductive CommandMeans (ls : List Line) : Command → Instruction → Prop
  | bare {k : Kind} : CommandMeans ls ⟨k, none⟩ (.ofKind k 0)
  | addressed {k : Kind} {o : Operand} {n : Nat} :
      Value ls o n → CommandMeans ls ⟨k, some o⟩ (.ofKind k (UInt16.ofNat (n % 4096)))

/-- In the lines `ls` the data directive sets the cell: its address is one of a memory of `size`
cells, and its value counts modulo 2^16. -/
structure DatumMeans (ls : List Line) (size : Nat) (d : Operand × Operand) (cell : Nat × Word) :
    Prop where
  address : Value ls d.1 cell.1
  inside : cell.1 < size
  value : ∃ v, Value ls d.2 v ∧ (cell.2.toNat : Int) = v % 65536

/-- The statement means something in the lines `ls` and for `size` cells. -/
def Meaningful (ls : List Line) (size : Nat) : Statement → Prop
  | .command c => ∃ i, CommandMeans ls c i
  | .data address value => ∃ cell, DatumMeans ls size (address, value) cell

/-- What is wrong with a statement on line `n`. An operand without a value comes before an address
outside memory. -/
inductive Fault (ls : List Line) (size n : Nat) (text : List Char) :
    Statement → AssemblyError → Prop
  | command {c : Command} : (¬∃ i, CommandMeans ls c i) →
      Fault ls size n text (.command c) (.malformed n (String.ofList text))
  | valueless {a v : Operand} : ¬((∃ x, Value ls a x) ∧ ∃ y, Value ls v y) →
      Fault ls size n text (.data a v) (.malformed n (String.ofList text))
  | outside {a v : Operand} {x y : Int} : Value ls a x → Value ls v y → ¬(0 ≤ x ∧ x < size) →
      Fault ls size n text (.data a v) (.dataOutOfRange n (String.ofList text) x)

/-! ## Source texts -/

/-- The source text is made of the lines `texts`, these say `ls`, and no name is defined twice. -/
structure Reads (source : String) (texts : List (List Char)) (ls : List Line) : Prop where
  splits : Splits source.toList texts
  lines : List.Forall₂ IsLine texts ls
  nodup : (names ls).Nodup

/-- A source text is read in one way. -/
theorem Reads.unique {source : String} {texts texts' : List (List Char)} {ls ls' : List Line}
    (h : Reads source texts ls) (h' : Reads source texts' ls') : texts = texts' ∧ ls = ls' := by
  have htexts : texts = texts' := h.splits.lines_eq.symm.trans h'.splits.lines_eq
  subst htexts
  have hunique : Relator.RightUnique IsLine := fun _ _ _ hl hl' => hl.unique hl'
  exact ⟨rfl, List.right_unique_forall₂' hunique h.lines h'.lines⟩

/-- No line with this text may follow the lines `ls`: it has none of the forms, or it defines one
of their names again. -/
def Misfit (ls : List Line) (text : List Char) : Prop :=
  ∀ l, IsLine text l → ∃ s, l.name? = some s ∧ s ∈ names ls

/-- The room for the instructions of a program. -/
def room (size : Nat) : Nat := min size fullSize

/-- The program has the contents of the lines `ls`, for a memory of `size` cells. -/
structure Contents (ls : List Line) (size : Nat) (p : Program) : Prop where
  length_le : (commands ls).length ≤ room size
  instructions : List.Forall₂ (CommandMeans ls) (commands ls) p.instructions
  data : List.Forall₂ (DatumMeans ls size) (data ls) p.data
  symbols : ∀ s v, (s, v) ∈ p.symbols ↔ Value ls (.name s) v
  sorted : p.symbols.Pairwise fun a b => a.1 < b.1

/-- The source text is the program `p`, for a memory of `size` cells. -/
def Assembles (source : String) (size : Nat) (p : Program) : Prop :=
  ∃ texts ls, Reads source texts ls ∧ Contents ls size p

/-- The source text is no program for a memory of `size` cells, and this is why. -/
inductive Refuses (source : String) (size : Nat) : AssemblyError → Prop
  | line {before after : List (List Char)} {text : List Char} {ls : List Line} :
      Splits source.toList (before ++ text :: after) → List.Forall₂ IsLine before ls →
      (names ls).Nodup → Misfit ls text →
      Refuses source size (.malformed (before.length + 1) (String.ofList text))
  | length {texts : List (List Char)} {ls : List Line} :
      Reads source texts ls → room size < (commands ls).length →
      Refuses source size (.tooLarge (commands ls).length (room size))
  | statement {before after : List (List Char)} {text : List Char} {first rest : List Line}
      {l : Line} {s : Statement} {e : AssemblyError} :
      Reads source (before ++ text :: after) (first ++ l :: rest) →
      before.length = first.length →
      (commands (first ++ l :: rest)).length ≤ room size →
      (∀ s' ∈ statements first, Meaningful (first ++ l :: rest) size s') →
      l.statement? = some s →
      Fault (first ++ l :: rest) size (before.length + 1) text s e →
      Refuses source size e

end AccumulatorMachine.Assembly
