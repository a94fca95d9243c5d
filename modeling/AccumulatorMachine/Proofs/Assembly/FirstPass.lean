import AccumulatorMachine.Proofs.Assembly.Meaning

/-! # The first pass

The draft of a source text holds what its lines say: `Draft.Describes d texts ls` is the invariant,
`Describes.add` the step for one line, and `exists_draft` the run over all lines. A line that does
not fit ends the pass (`ofSource_of_misfit`), and every source text either reads or has such a line
(`reads_or_misfit`).
-/

namespace AccumulatorMachine.Assembly
set_option autoImplicit false
open Text

/-! ## Definitions line by line -/

/-- What a line defines where the next instruction has the address `address`. -/
def Line.definition? (address : Nat) : Line → Option (String × Definition)
  | .constant name value => some (name, .constant value)
  | .label name _ => some (name, .label address)
  | .blank | .data .. | .command _ => none

theorem Line.definition?_fst (address : Nat) (l : Line) :
    (l.definition? address).map Prod.fst = l.name? := by
  cases l <;> rfl

theorem defines_iff {ls : List Line} {s : String} {e : Definition} :
    Defines ls s e ↔ ∃ before l after, ls = before ++ l :: after ∧
      l.definition? (commands before).length = some (s, e) := by
  constructor
  · intro h
    cases h with
    | @label before after s c => exact ⟨before, .label s c, after, rfl, rfl⟩
    | @constant before after s o => exact ⟨before, .constant s o, after, rfl, rfl⟩
  · rintro ⟨before, l, after, rfl, hl⟩
    cases l with
    | constant name value =>
      cases hl
      exact .constant
    | label name c =>
      cases hl
      exact .label
    | blank => simp [Line.definition?] at hl
    | data a v => simp [Line.definition?] at hl
    | command c => simp [Line.definition?] at hl

theorem mem_names_iff {ls : List Line} {s : String} : s ∈ names ls ↔ ∃ e, Defines ls s e := by
  rw [names, List.mem_filterMap]
  constructor
  · rintro ⟨l, hl, hs⟩
    obtain ⟨before, after, rfl⟩ := List.append_of_mem hl
    rw [← Line.definition?_fst (commands before).length, Option.map_eq_some_iff] at hs
    obtain ⟨⟨_, e⟩, he, rfl⟩ := hs
    exact ⟨e, defines_iff.2 ⟨before, l, after, rfl, he⟩⟩
  · rintro ⟨e, he⟩
    obtain ⟨before, l, after, rfl, hl⟩ := defines_iff.1 he
    refine ⟨l, by simp, ?_⟩
    rw [← Line.definition?_fst (commands before).length, hl]
    rfl

theorem defines_concat_iff {ls : List Line} {l : Line} {s : String} {e : Definition} :
    Defines (ls ++ [l]) s e ↔
      Defines ls s e ∨ l.definition? (commands ls).length = some (s, e) := by
  rw [defines_iff, defines_iff]
  constructor
  · rintro ⟨before, x, after, heq, hx⟩
    rcases List.eq_nil_or_concat after with rfl | ⟨after, y, rfl⟩
    · obtain ⟨rfl, hlast⟩ := List.append_inj' heq rfl
      cases hlast
      exact .inr hx
    · rw [List.concat_eq_append, ← List.cons_append, ← List.append_assoc] at heq
      obtain ⟨rfl, -⟩ := List.append_inj' heq rfl
      exact .inl ⟨before, x, after, rfl, hx⟩
  · rintro (⟨before, x, after, rfl, hx⟩ | hl)
    · exact ⟨before, x, after ++ [l], by simp, hx⟩
    · exact ⟨ls, l, [], rfl, hl⟩

theorem nodup_names_concat {ls : List Line} {l : Line} (h : (names ls).Nodup)
    (hfresh : ∀ s, l.name? = some s → s ∉ names ls) : (names (ls ++ [l])).Nodup := by
  rw [names_append]
  cases hname : l.name? with
  | none => simpa [names, hname] using h
  | some s =>
    have hsingle : names [l] = [s] := by simp [names, hname]
    rw [hsingle, ← List.concat_eq_append]
    exact List.Nodup.concat (hfresh s hname) h

/-! ## One line -/

/-- The statements of lines with their places, the first line being line `n`. -/
def placed (n : Nat) : List (List Char) → List Line → List Placed
  | text :: texts, l :: ls =>
    (l.statement?.map fun s => ⟨n, text, s⟩).toList ++ placed (n + 1) texts ls
  | _, _ => []

theorem placed_append {texts : List (List Char)} {ls : List Line} (h : texts.length = ls.length)
    (n : Nat) (texts' : List (List Char)) (ls' : List Line) :
    placed n (texts ++ texts') (ls ++ ls') =
      placed n texts ls ++ placed (n + texts.length) texts' ls' := by
  induction ls generalizing n texts with
  | nil => simp [List.length_eq_zero_iff.1 h, placed]
  | cons l ls ih =>
    cases texts with
    | nil => simp at h
    | cons text texts =>
      rw [List.cons_append, List.cons_append, placed, placed,
        ih (Nat.succ.inj (by simpa using h)) (n + 1), List.append_assoc, List.length_cons,
        show n + 1 + texts.length = n + (texts.length + 1) by omega]

namespace Draft

/-- The draft holds what the lines `ls`, with the texts `texts`, say. -/
structure Describes (d : Draft) (texts : List (List Char)) (ls : List Line) : Prop where
  lines : List.Forall₂ IsLine texts ls
  nodup : (names ls).Nodup
  size : d.size = (commands ls).length
  symbols : ∀ s e, d.symbols.find? s = some e ↔ Defines ls s e
  statements : d.statements.reverse = placed 1 texts ls

theorem describes_nil : Describes {} [] [] where
  lines := .nil
  nodup := List.nodup_nil
  size := rfl
  symbols s e := by
    simp [defines_iff]
  statements := rfl

theorem Describes.find?_eq_none {d : Draft} {texts : List (List Char)} {ls : List Line}
    (h : d.Describes texts ls) (s : String) : d.symbols.find? s = none ↔ s ∉ names ls := by
  rw [mem_names_iff, Option.eq_none_iff_forall_ne_some]
  push Not
  simp only [ne_eq, h.symbols]

/-- What a line adds: its instruction to the size, its statement, and its definition. -/
theorem add?_eq_some {d d' : Draft} {n : Nat} {text : List Char} {l : Line}
    (h : d.add? n text l = some d') :
    d'.size = d.size + (commands [l]).length ∧
      d'.statements = (l.statement?.map fun s => ⟨n, text, s⟩).toList ++ d.statements ∧
      ((l.definition? d.size = none ∧ d'.symbols = d.symbols) ∨
        ∃ s e, l.definition? d.size = some (s, e) ∧ d.symbols.define? s e = some d'.symbols) := by
  cases l with
  | blank =>
    cases h
    exact ⟨rfl, rfl, .inl ⟨rfl, rfl⟩⟩
  | data a v =>
    cases h
    exact ⟨rfl, rfl, .inl ⟨rfl, rfl⟩⟩
  | command c =>
    cases h
    exact ⟨rfl, rfl, .inl ⟨rfl, rfl⟩⟩
  | constant name value =>
    obtain ⟨symbols, hs, rfl⟩ := Option.map_eq_some_iff.1 h
    exact ⟨rfl, rfl, .inr ⟨_, _, rfl, hs⟩⟩
  | label name c =>
    cases c with
    | none =>
      obtain ⟨symbols, hs, rfl⟩ := Option.map_eq_some_iff.1 h
      exact ⟨rfl, rfl, .inr ⟨_, _, rfl, hs⟩⟩
    | some c =>
      obtain ⟨_, hd, rfl⟩ := Option.map_eq_some_iff.1 h
      obtain ⟨symbols, hs, rfl⟩ := Option.map_eq_some_iff.1 hd
      exact ⟨rfl, rfl, .inr ⟨_, _, rfl, hs⟩⟩

theorem isSome_add?_iff {d : Draft} {n : Nat} {text : List Char} {l : Line} :
    (d.add? n text l).isSome ↔ ∀ s, l.name? = some s → d.symbols.find? s = none := by
  cases l with
  | blank => simp [add?, Line.name?]
  | data a v => simp [add?, Line.name?]
  | command c => simp [add?, Line.name?]
  | constant name value =>
    simp [add?, Line.name?, define?, SymbolTable.define?_isSome_iff]
  | label name c =>
    cases c <;> simp [add?, Line.name?, define?, SymbolTable.define?_isSome_iff]

theorem Describes.add {d d' : Draft} {texts : List (List Char)} {ls : List Line} {text : List Char}
    {l : Line} (h : d.Describes texts ls) (hl : IsLine text l)
    (hd : d.add? (texts.length + 1) text l = some d') : d'.Describes (texts ++ [text]) (ls ++ [l]) := by
  have hfresh : ∀ s, l.name? = some s → s ∉ names ls := by
    intro s hs
    rw [← h.find?_eq_none]
    exact isSome_add?_iff.1 (Option.isSome_of_mem hd) s hs
  obtain ⟨hsize, hstatements, hsymbols⟩ := add?_eq_some hd
  rw [h.size] at hsize hsymbols
  have hlen : texts.length = ls.length := h.lines.length_eq
  refine ⟨List.rel_append h.lines (.cons hl .nil), nodup_names_concat h.nodup hfresh, ?_, ?_, ?_⟩
  · rw [hsize, commands_append, List.length_append]
  · intro s e
    rw [defines_concat_iff, ← h.symbols]
    rcases hsymbols with ⟨hnone, hsame⟩ | ⟨name, e', hsome, hdefine⟩
    · simp [hnone, hsame]
    · have hname : l.name? = some name := by
        rw [← Line.definition?_fst (commands ls).length, hsome]
        rfl
      rw [SymbolTable.find?_define? hdefine, hsome]
      by_cases hs : s = name
      · rw [if_pos hs, hs, (h.find?_eq_none name).2 (hfresh name hname)]
        simp
      · simp [hs, Ne.symm hs]
  · rw [hstatements, List.reverse_append, h.statements, placed_append hlen]
    cases hs : l.statement? <;> simp [placed, hs, Nat.add_comm]

theorem Describes.addLine_of_fit {d : Draft} {texts : List (List Char)} {ls : List Line}
    {text : List Char} {l : Line} (h : d.Describes texts ls) (hl : IsLine text l)
    (hfresh : ∀ s, l.name? = some s → s ∉ names ls) :
    ∃ d', d.addLine (texts.length + 1) text = .ok d' ∧ d'.Describes (texts ++ [text]) (ls ++ [l]) := by
  have hsome : (d.add? (texts.length + 1) text l).isSome :=
    isSome_add?_iff.2 fun s hs => (h.find?_eq_none s).2 (hfresh s hs)
  obtain ⟨d', hd'⟩ := Option.isSome_iff_exists.1 hsome
  refine ⟨d', ?_, h.add hl hd'⟩
  rw [addLine, readLine_eq_some_iff.2 hl, Option.bind_some, hd']

theorem Describes.addLine_of_misfit {d : Draft} {texts : List (List Char)} {ls : List Line}
    {text : List Char} (h : d.Describes texts ls) (hm : Misfit ls text) (n : Nat) :
    d.addLine n text = .error (.malformed n (String.ofList text)) := by
  have hnone : (readLine text).bind (d.add? n text) = none := by
    cases hl : readLine text with
    | none => rfl
    | some l =>
      rw [Option.bind_some, ← Option.not_isSome_iff_eq_none, isSome_add?_iff]
      intro hfresh
      obtain ⟨s, hs, hmem⟩ := hm l (readLine_eq_some_iff.1 hl)
      exact (h.find?_eq_none s).1 (hfresh s hs) hmem
  rw [addLine, hnone]

/-! ## All lines -/

theorem Describes.foldlM_addLine {d : Draft} {texts more : List (List Char)} {ls ls' : List Line}
    (h : d.Describes texts ls) (hmore : List.Forall₂ IsLine more ls')
    (hnodup : (names (ls ++ ls')).Nodup) :
    ∃ d', (more.zipIdx (texts.length + 1)).foldlM (fun d line => d.addLine line.2 line.1) d = .ok d' ∧
      d'.Describes (texts ++ more) (ls ++ ls') := by
  induction hmore generalizing d texts ls with
  | nil => exact ⟨d, rfl, by simpa using h⟩
  | @cons text l more ls' hl _ ih =>
    have hfresh : ∀ s, l.name? = some s → s ∉ names ls := by
      intro s hs hmem
      rw [names_append, List.nodup_append] at hnodup
      exact hnodup.2.2 s hmem s (List.mem_filterMap.2 ⟨l, by simp, hs⟩) rfl
    obtain ⟨d₁, hd₁, h₁⟩ := h.addLine_of_fit hl hfresh
    obtain ⟨d₂, hd₂, h₂⟩ := ih h₁ (by simpa using hnodup)
    rw [List.length_append, List.length_singleton] at hd₂
    refine ⟨d₂, ?_, by simpa using h₂⟩
    rw [List.zipIdx_cons, List.foldlM_cons, hd₁]
    exact hd₂

theorem exists_draft {source : String} {texts : List (List Char)} {ls : List Line}
    (h : Reads source texts ls) : ∃ d, ofSource source = .ok d ∧ d.Describes texts ls := by
  rw [ofSource, h.splits.lines_eq]
  exact describes_nil.foldlM_addLine h.lines h.nodup

theorem ofSource_of_misfit {source : String} {before after : List (List Char)} {text : List Char}
    {ls : List Line} (hsplits : Splits source.toList (before ++ text :: after))
    (hlines : List.Forall₂ IsLine before ls) (hnodup : (names ls).Nodup) (hm : Misfit ls text) :
    ofSource source = .error (.malformed (before.length + 1) (String.ofList text)) := by
  obtain ⟨d, hd, h⟩ := describes_nil.foldlM_addLine hlines hnodup
  rw [ofSource, hsplits.lines_eq, List.zipIdx_append, List.foldlM_append,
    show (before.zipIdx 1).foldlM (fun d line => Draft.addLine d line.2 line.1) {} = .ok d from hd,
    Nat.add_comm 1 before.length, List.zipIdx_cons]
  simp only [List.foldlM_cons, bind, Except.bind, h.addLine_of_misfit hm]

end Draft

theorem reads_or_misfit (texts : List (List Char)) :
    (∃ ls, List.Forall₂ IsLine texts ls ∧ (names ls).Nodup) ∨
      ∃ before text after ls, texts = before ++ text :: after ∧ List.Forall₂ IsLine before ls ∧
        (names ls).Nodup ∧ Misfit ls text := by
  induction texts using List.reverseRecOn with
  | nil => exact .inl ⟨[], .nil, List.nodup_nil⟩
  | append_singleton texts text ih =>
    rcases ih with ⟨ls, hlines, hnodup⟩ | ⟨before, bad, after, ls, rfl, hlines, hnodup, hm⟩
    · by_cases hm : Misfit ls text
      · exact .inr ⟨texts, text, [], ls, rfl, hlines, hnodup, hm⟩
      · simp only [Misfit, not_forall, not_exists, not_and] at hm
        obtain ⟨l, hl, hfresh⟩ := hm
        exact .inl ⟨ls ++ [l], List.rel_append hlines (.cons hl .nil),
          nodup_names_concat hnodup hfresh⟩
    · exact .inr ⟨before, bad, after ++ [text], ls, by simp, hlines, hnodup, hm⟩

end AccumulatorMachine.Assembly
