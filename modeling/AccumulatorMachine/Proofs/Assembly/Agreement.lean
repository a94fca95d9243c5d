import AccumulatorMachine.Proofs.Assembly.SecondPass

/-! # Lines that say the same

Two lists of lines say the same if they have the same instructions and the same data in the same
order, and the same definitions in any order (`Agrees`). A name then has the same values in both,
so all that is said of a source text by way of its lines is the same: its contents
(`Agrees.contents_iff`), and what is wrong with its statements (`Agrees.fault`).
-/

namespace AccumulatorMachine.Assembly
set_option autoImplicit false
open Text

/-! ## Data -/

@[simp] theorem data_append (ls ls' : List Line) : data (ls ++ ls') = data ls ++ data ls' := by
  rw [data, statements_append, List.filterMap_append]
  rfl

/-! ## Definitions in order -/

/-- The names that lines define with what they stand for, where `start` instructions come before
the lines. -/
def definitions (start : Nat) : List Line → List (String × Definition)
  | [] => []
  | l :: ls => (l.definition? start).toList ++ definitions (start + (commands [l]).length) ls

theorem definitions_append (start : Nat) (ls ls' : List Line) :
    definitions start (ls ++ ls') =
      definitions start ls ++ definitions (start + (commands ls).length) ls' := by
  induction ls generalizing start with
  | nil => rfl
  | cons l ls ih =>
    rw [List.cons_append, definitions, ih, definitions, List.append_assoc, Nat.add_assoc,
      ← List.length_append, ← commands_append, List.singleton_append]

theorem mem_definitions_iff {ls : List Line} {s : String} {e : Definition} :
    (s, e) ∈ definitions 0 ls ↔ Defines ls s e := by
  induction ls using List.reverseRecOn with
  | nil => simp [definitions, defines_iff]
  | append_singleton ls l ih =>
    rw [definitions_append, List.mem_append, ih, defines_concat_iff, Nat.zero_add, definitions,
      definitions, List.append_nil, Option.mem_toList]

theorem map_fst_definitions (start : Nat) (ls : List Line) :
    (definitions start ls).map Prod.fst = names ls := by
  induction ls generalizing start with
  | nil => rfl
  | cons l ls ih =>
    have hname := l.definition?_fst start
    rw [definitions, List.map_append, ih, names, names, List.filterMap_cons, ← hname]
    cases l.definition? start <;> rfl

/-! ## Agreement -/

/-- The two lists of lines have the same instructions and the same data, each in one order, and the
same definitions in some order. -/
structure Agrees (ls ls' : List Line) : Prop where
  commands : commands ls = commands ls'
  data : data ls = data ls'
  definitions : (definitions 0 ls).Perm (definitions 0 ls')

namespace Agrees
variable {ls ls' ls'' : List Line}

theorem refl (ls : List Line) : Agrees ls ls := ⟨rfl, rfl, .refl _⟩

theorem symm (h : Agrees ls ls') : Agrees ls' ls :=
  ⟨h.commands.symm, h.data.symm, h.definitions.symm⟩

theorem trans (h : Agrees ls ls') (h' : Agrees ls' ls'') : Agrees ls ls'' :=
  ⟨h.commands.trans h'.commands, h.data.trans h'.data, h.definitions.trans h'.definitions⟩

theorem defines_iff (h : Agrees ls ls') {s : String} {e : Definition} :
    Defines ls s e ↔ Defines ls' s e := by
  rw [← mem_definitions_iff, h.definitions.mem_iff, mem_definitions_iff]

theorem perm_names (h : Agrees ls ls') : (names ls).Perm (names ls') := by
  rw [← map_fst_definitions 0, ← map_fst_definitions 0]
  exact h.definitions.map Prod.fst

/-! ## What depends on definitions only -/

theorem value (h : Agrees ls ls') {o : Operand} {v : Int} (hv : Value ls o v) : Value ls' o v := by
  induction hv with
  | number n => exact .number n
  | label hs => exact .label (h.defines_iff.1 hs)
  | constant hs _ ih => exact .constant (h.defines_iff.1 hs) ih

theorem value_iff (h : Agrees ls ls') {o : Operand} {v : Int} : Value ls o v ↔ Value ls' o v :=
  ⟨h.value, h.symm.value⟩

theorem commandMeans (h : Agrees ls ls') {c : Command} {i : Instruction}
    (hc : CommandMeans ls c i) : CommandMeans ls' c i := by
  cases hc with
  | bare => exact .bare
  | addressed hv => exact .addressed (h.value hv)

theorem datumMeans (h : Agrees ls ls') {size : Nat} {d : Operand × Operand} {cell : Nat × Word}
    (hd : DatumMeans ls size d cell) : DatumMeans ls' size d cell := by
  obtain ⟨v, hv, hword⟩ := hd.value
  exact ⟨h.value hd.address, hd.inside, v, h.value hv, hword⟩

theorem meaningful (h : Agrees ls ls') {size : Nat} {s : Statement} (hs : Meaningful ls size s) :
    Meaningful ls' size s := by
  cases s with
  | command c => exact hs.imp fun _ => h.commandMeans
  | data a v => exact hs.imp fun _ => h.datumMeans

theorem fault (h : Agrees ls ls') {size n : Nat} {text : List Char} {s : Statement}
    {e : AssemblyError} (he : Fault ls size n text s e) : Fault ls' size n text s e := by
  cases he with
  | command hno => exact .command fun hsome => hno (hsome.imp fun _ => h.symm.commandMeans)
  | valueless hno =>
    refine .valueless fun hsome => hno ?_
    exact hsome.imp (Exists.imp fun _ => h.symm.value) (Exists.imp fun _ => h.symm.value)
  | outside hx hy hrange => exact .outside (h.value hx) (h.value hy) hrange

/-! ## The program -/

theorem contents (h : Agrees ls ls') {size : Nat} {p : Program} (hp : Contents ls size p) :
    Contents ls' size p where
  length_le := h.commands ▸ hp.length_le
  instructions := by
    rw [← h.commands]
    exact hp.instructions.imp fun _ _ => h.commandMeans
  data := by
    rw [← h.data]
    exact hp.data.imp fun _ _ => h.datumMeans
  symbols s v := (hp.symbols s v).trans h.value_iff
  sorted := hp.sorted

end Agrees

/-! ## Source texts -/

/-- What those of the lines say that can be read. -/
def readings (texts : List (List Char)) : List Line := texts.filterMap readLine

theorem readings_append (texts texts' : List (List Char)) :
    readings (texts ++ texts') = readings texts ++ readings texts' :=
  List.filterMap_append

theorem readings_cons {text : List Char} {l : Line} (h : IsLine text l) (texts : List (List Char)) :
    readings (text :: texts) = l :: readings texts := by
  rw [readings, List.filterMap_cons, readLine_eq_some_iff.2 h]
  rfl

theorem forall₂_isLine_iff {texts : List (List Char)} {ls : List Line} :
    List.Forall₂ IsLine texts ls ↔ (∀ t ∈ texts, ∃ l, IsLine t l) ∧ readings texts = ls := by
  constructor
  · intro h
    refine ⟨exists_of_forall₂ h, ?_⟩
    induction h with
    | nil => rfl
    | cons hl _ ih => rw [readings_cons hl, ih]
  · rintro ⟨h, rfl⟩
    induction texts with
    | nil => exact .nil
    | cons t texts ih =>
      obtain ⟨l, hl⟩ := h t List.mem_cons_self
      rw [readings_cons hl]
      exact .cons hl (ih fun u hu => h u (List.mem_cons_of_mem t hu))

theorem Reads.eq_readings {source : String} {texts : List (List Char)} {ls : List Line}
    (h : Reads source texts ls) :
    (∀ t ∈ Text.lines source.toList, ∃ l, IsLine t l) ∧
      readings (Text.lines source.toList) = ls := by
  rw [h.splits.lines_eq]
  exact forall₂_isLine_iff.1 h.lines

/-- A source text reads if its lines do and agree with those of one that reads. -/
theorem Reads.of_agrees {source source' : String} {texts : List (List Char)} {ls : List Line}
    (h : Reads source texts ls) (hread : ∀ t ∈ Text.lines source'.toList, ∃ l, IsLine t l)
    (hagrees : Agrees ls (readings (Text.lines source'.toList))) :
    Reads source' (Text.lines source'.toList) (readings (Text.lines source'.toList)) where
  splits := splits_iff.2 rfl
  lines := forall₂_isLine_iff.2 ⟨hread, rfl⟩
  nodup := hagrees.perm_names.nodup_iff.1 h.nodup

end AccumulatorMachine.Assembly
