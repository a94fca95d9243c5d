import AccumulatorMachine.Proofs.Assembly.Substance

/-! # Edits of the layout

Changes of a source text that change nothing: letters in the other case, blank lines and lines with
a comment only, spaces and tabs at the ends of lines, comments after them, and line ends with a
carriage return. `Edit` says of each where in the text it is made and which number each line has
afterwards, and `Edits` puts any number of them together. Main statement: `assemble_edited`.
-/

namespace AccumulatorMachine.Text
set_option autoImplicit false

/-! ## Where lines start and end -/

/-- After `before` a line starts. -/
def StartsLine (before : List Char) : Prop := ∀ c ∈ before.getLast?, c = '\n'

/-- Between `before` and `after` a line ends: at a line feed, at a carriage return and a line feed,
or at the end of a text whose last line lacks its line end. -/
inductive EndsLine (before : List Char) : List Char → Prop
  | feed {rest : List Char} : EndsLine before ('\n' :: rest)
  | returnFeed {rest : List Char} : EndsLine before ('\r' :: '\n' :: rest)
  | last : ¬StartsLine before → EndsLine before []

theorem ne_nil_of_not_startsLine {before line : List Char} (h : StartsLine before)
    (hno : ¬StartsLine (before ++ line)) : line ≠ [] := by
  rintro rfl
  rw [List.append_nil] at hno
  exact hno h

theorem Splits.lines_append {before : List Char} {ls : List (List Char)} (h : Splits before ls)
    (hstart : StartsLine before) (after : List Char) :
    lines (before ++ after) = ls ++ lines after := by
  have hrest {line rest : List Char} (hline : StartsLine (line ++ '\n' :: rest)) :
      StartsLine rest := by
    intro c hc
    apply hline c
    rw [List.getLast?_append_cons, List.getLast?_cons, Option.mem_def.1 hc]
    rfl
  induction h with
  | nil => rfl
  | @last line h0 hline =>
    have hlast := hstart _ (List.getLast?_eq_some_getLast h0)
    exact absurd (hlast ▸ List.getLast_mem h0) hline
  | @feed line rest ls hline hlast _ ih =>
    rw [List.append_assoc, List.cons_append, lines_feed hline hlast, ih (hrest hstart)]
    rfl
  | @returnFeed line rest ls hline _ ih =>
    have hstart' : StartsLine ((line ++ ['\r']) ++ '\n' :: rest) := by simpa using hstart
    rw [List.append_assoc, List.cons_append, List.cons_append, lines_returnFeed hline,
      ih (hrest hstart')]
    rfl

/-- What follows a line end is cut into lines for itself. -/
theorem lines_append {before : List Char} (h : StartsLine before) (after : List Char) :
    lines (before ++ after) = lines before ++ lines after :=
  (splits_iff.2 rfl).lines_append h after

/-- A text ends with a part of a line, which is empty after a line end. -/
theorem exists_last_line (cs : List Char) :
    ∃ before line, cs = before ++ line ∧ StartsLine before ∧ '\n' ∉ line := by
  induction cs using List.reverseRecOn with
  | nil => exact ⟨[], [], rfl, by simp [StartsLine], by simp⟩
  | append_singleton cs c ih =>
    by_cases hc : c = '\n'
    · exact ⟨cs ++ [c], [], by simp, by simp [StartsLine, hc], by simp⟩
    · obtain ⟨before, line, rfl, hstart, hline⟩ := ih
      exact ⟨before, line ++ [c], by simp, hstart, by simp [hline, Ne.symm hc]⟩

end AccumulatorMachine.Text

namespace AccumulatorMachine.Assembly
set_option autoImplicit false
open Text

/-! ## What leaves the code of a line -/

theorem IsCode.indent {gap text cs : List Char} (h : IsCode text cs) (hgap : Blanks gap) :
    IsCode (gap ++ text) cs := by
  obtain ⟨before, comment, rfl, hbefore, hcomment, blanks, blanks', rfl, hb, hb', htight⟩ := h
  refine ⟨gap ++ (blanks ++ cs ++ blanks'), comment, by simp, ?_, hcomment,
    gap ++ blanks, blanks', by simp, ?_, hb', htight⟩
  · rw [List.mem_append, not_or]
    exact ⟨fun hmem => absurd (hgap '#' hmem) (by decide), hbefore⟩
  · exact fun c hc => (List.mem_append.1 hc).elim (hgap c) (hb c)

theorem IsCode.trail {gap text cs : List Char} (h : IsCode text cs) (hgap : Blanks gap) :
    IsCode (text ++ gap) cs := by
  obtain ⟨before, comment, rfl, hbefore, hcomment, blanks, blanks', rfl, hb, hb', htight⟩ := h
  cases comment with
  | nil =>
    refine ⟨blanks ++ cs ++ blanks' ++ gap, [], by simp, ?_, hcomment,
      blanks, blanks' ++ gap, by simp, hb, ?_, htight⟩
    · rw [List.mem_append, not_or]
      exact ⟨hbefore, fun hmem => absurd (hgap '#' hmem) (by decide)⟩
    · exact fun c hc => (List.mem_append.1 hc).elim (hb' c) (hgap c)
  | cons c comment =>
    exact ⟨blanks ++ cs ++ blanks', c :: comment ++ gap, by simp, hbefore, hcomment,
      blanks, blanks', rfl, hb, hb', htight⟩

theorem IsCode.comment {text cs : List Char} (h : IsCode text cs) (words : List Char) :
    IsCode (text ++ '#' :: words) cs := by
  obtain ⟨before, comment, rfl, hbefore, hcomment, htrims⟩ := h
  refine ⟨before, comment ++ '#' :: words, by simp, hbefore, fun c hc => ?_, htrims⟩
  cases comment with
  | nil => exact (Option.some.inj hc).symm
  | cons => exact hcomment c hc

/-- Put after any line, the text leaves the code of the line. -/
def Idle (suffix : List Char) : Prop := '\n' ∉ suffix ∧ ∀ line, code (line ++ suffix) = code line

theorem idle_of_blanks {gap : List Char} (hfeed : '\n' ∉ gap) (h : Blanks gap) : Idle gap :=
  ⟨hfeed, fun _ => isCode_iff.1 ((isCode_iff.2 rfl).trail h)⟩

theorem idle_return : Idle ['\r'] := idle_of_blanks (by decide) (List.forall_mem_singleton.2 rfl)

theorem idle_comment {words : List Char} (hfeed : '\n' ∉ words) : Idle ('#' :: words) :=
  ⟨by simpa using hfeed, fun _ => isCode_iff.1 ((isCode_iff.2 rfl).comment words)⟩

/-! ## The codes of lines -/

theorem codes_feed {line : List Char} (h : '\n' ∉ line) (rest : List Char) :
    (lines (line ++ '\n' :: rest)).map code = code line :: (lines rest).map code := by
  by_cases hlast : line.getLast? = some '\r'
  · obtain ⟨short, rfl⟩ := List.getLast?_eq_some_iff.1 hlast
    have hshort : '\n' ∉ short := fun hmem => h (List.mem_append_left _ hmem)
    rw [List.append_assoc, List.singleton_append, lines_returnFeed hshort, List.map_cons,
      idle_return.2]
  · rw [lines_feed h hlast, List.map_cons]

theorem codes_last {line : List Char} (h0 : line ≠ []) (h : '\n' ∉ line) :
    (lines line).map code = [code line] := by
  rw [lines_last h0 h]
  rfl

theorem codes_suffix {before after suffix : List Char} (h : EndsLine before after)
    (hs : Idle suffix) :
    (lines (before ++ suffix ++ after)).map code = (lines (before ++ after)).map code := by
  obtain ⟨first, line, rfl, hstart, hline⟩ := exists_last_line before
  have hline' : '\n' ∉ line ++ suffix := by simp [hline, hs.1]
  simp only [List.append_assoc]
  rw [lines_append hstart, lines_append hstart, List.map_append, List.map_append]
  refine congrArg (List.map code (lines first) ++ ·) ?_
  rw [← List.append_assoc]
  cases h with
  | feed => rw [codes_feed hline', codes_feed hline, hs.2]
  | returnFeed =>
    rw [lines_returnFeed hline', lines_returnFeed hline, List.map_cons, List.map_cons, hs.2]
  | last hno =>
    have h0 : line ≠ [] := ne_nil_of_not_startsLine hstart hno
    rw [List.append_nil, List.append_nil, codes_last (by simp [h0]) hline', codes_last h0 hline,
      hs.2]

theorem codes_indent {before after gap : List Char} (h : StartsLine before) (h0 : after ≠ [])
    (hfeed : '\n' ∉ gap) (hgap : Blanks gap) :
    (lines (before ++ gap ++ after)).map code = (lines (before ++ after)).map code := by
  have hcode (line : List Char) : code (gap ++ line) = code line :=
    isCode_iff.1 ((isCode_iff.2 rfl).indent hgap)
  rw [List.append_assoc, lines_append h, lines_append h, List.map_append, List.map_append]
  refine congrArg (List.map code (lines before) ++ ·) ?_
  cases hcut : cutAt '\n' after with
  | none =>
    have hline : '\n' ∉ after := cutAt_eq_none_iff.1 hcut
    rw [codes_last (by simp [h0]) (by simp [hfeed, hline]), codes_last h0 hline, hcode]
  | some parts =>
    obtain ⟨line, rest⟩ := parts
    obtain ⟨rfl, hline⟩ := eq_append_of_cutAt hcut
    rw [← List.append_assoc, codes_feed (by simp [hfeed, hline]), codes_feed hline, hcode]

theorem codes_close {before : List Char} (h : ¬StartsLine before) :
    (lines (before ++ ['\n'])).map code = (lines before).map code := by
  obtain ⟨first, line, rfl, hstart, hline⟩ := exists_last_line before
  have h0 : line ≠ [] := ne_nil_of_not_startsLine hstart h
  rw [List.append_assoc, lines_append hstart, lines_append hstart, List.map_append, List.map_append,
    codes_feed hline, codes_last h0 hline]
  rfl

/-! ## Edits -/

/-- Spaces and tabs. -/
def Gap (cs : List Char) : Prop := ∀ c ∈ cs, c = ' ' ∨ c = '\t'

theorem Gap.blanks {gap : List Char} (h : Gap gap) : Blanks gap := by
  intro c hc
  rcases h c hc with rfl | rfl <;> decide

theorem Gap.not_feed {gap : List Char} (h : Gap gap) : '\n' ∉ gap := by
  intro hmem
  rcases h '\n' hmem with heq | heq
  · exact absurd heq (by decide)
  · exact absurd heq (by decide)

/-- `Edit cs f cs'`: the text `cs'` is `cs` with one change of the layout, and line `n` of `cs` is
line `f n` of `cs'`. -/
inductive Edit : List Char → (Nat → Nat) → List Char → Prop
  /-- Letters are replaced by the same letters in the other case. -/
  | recase {cs cs' : List Char} :
      List.Forall₂ (fun c c' => c.toUpper = c'.toUpper) cs cs' → Edit cs id cs'
  /-- Spaces and tabs are put before a line. -/
  | indent {before gap after : List Char} : StartsLine before → after ≠ [] → Gap gap →
      Edit (before ++ after) id (before ++ gap ++ after)
  /-- Spaces and tabs are put after a line. -/
  | trail {before gap after : List Char} : EndsLine before after → Gap gap →
      Edit (before ++ after) id (before ++ gap ++ after)
  /-- A comment is put after a line. -/
  | comment {before words after : List Char} : EndsLine before after → '\n' ∉ words →
      Edit (before ++ after) id (before ++ '#' :: words ++ after)
  /-- A line ends with a carriage return and a line feed in place of a line feed. -/
  | returnFeed {before after : List Char} :
      Edit (before ++ '\n' :: after) id (before ++ '\r' :: '\n' :: after)
  /-- The last line gets the line end that it lacks. -/
  | close {before : List Char} : ¬StartsLine before → Edit before id (before ++ ['\n'])
  /-- Lines that are blank or a comment are put between two lines or after the last one. -/
  | insert {before between after : List Char} : StartsLine before →
      StartsLine between ∨ after = [] → (∀ line ∈ lines between, IsCode line []) →
      Edit (before ++ after) (shift (lines before).length (lines between).length)
        (before ++ between ++ after)

/-- Any number of edits, one after the other. -/
inductive Edits : List Char → (Nat → Nat) → List Char → Prop
  | refl (cs : List Char) : Edits cs id cs
  | step {cs cs' cs'' : List Char} {f g : Nat → Nat} :
      Edits cs f cs' → Edit cs' g cs'' → Edits cs (g ∘ f) cs''

theorem follows_of_codes {cs cs' : List Char}
    (h : (lines cs').map code = (lines cs).map code) : Follows id (lines cs) (lines cs') := by
  apply Follows.of_map_essence
  have hmap (ts : List (List Char)) : ts.map essence = (ts.map code).map capitals :=
    List.map_map.symm
  rw [hmap, hmap, h]

theorem Edit.follows {cs cs' : List Char} {f : Nat → Nat} (h : Edit cs f cs') :
    Follows f (lines cs) (lines cs') := by
  cases h with
  | recase hsame =>
    have hcapitals : capitals cs = capitals cs' := capitals_eq_iff.2 hsame
    have hmap (ds : List Char) : (lines ds).map essence = (lines (capitals ds)).map code := by
      rw [lines_capitals, List.map_map]
      exact congrArg (List.map · (lines ds)) (funext fun t => (code_capitals t).symm)
    exact .of_map_essence (by rw [hmap, hmap, hcapitals])
  | indent hstart h0 hgap =>
    exact follows_of_codes (codes_indent hstart h0 hgap.not_feed hgap.blanks)
  | trail hend hgap =>
    exact follows_of_codes (codes_suffix hend (idle_of_blanks hgap.not_feed hgap.blanks))
  | comment hend hwords => exact follows_of_codes (codes_suffix hend (idle_comment hwords))
  | @returnFeed before after =>
    have hend : EndsLine before ('\n' :: after) := .feed
    have hcodes := codes_suffix hend idle_return
    rw [List.append_assoc] at hcodes
    exact follows_of_codes hcodes
  | close hno => exact follows_of_codes (codes_close hno)
  | @insert before between after hstart hbetween hblank =>
    have hlines : lines (between ++ after) = lines between ++ lines after := by
      rcases hbetween with hbetween | rfl
      · exact lines_append hbetween after
      · simp
    rw [List.append_assoc, lines_append hstart, lines_append hstart, hlines, ← List.append_assoc]
    exact .insert (fun t ht => isCode_iff.1 (hblank t ht)) _ _

theorem Edits.follows {cs cs' : List Char} {f : Nat → Nat} (h : Edits cs f cs') :
    Follows f (lines cs) (lines cs') := by
  induction h with
  | refl => exact .of_map_essence rfl
  | step _ hedit ih => exact ih.trans hedit.follows

/-- **Layout and letter case mean nothing.** After any edits a source text is the same program, or
it is refused for the same reason, with the same numbers and on the line that has become of the one
it was refused for. -/
theorem assemble_edited {source source' : String} {f : Nat → Nat}
    (h : Edits source.toList f source'.toList) (size : Nat) :
    (∀ p, Program.assemble source size = .ok p → Program.assemble source' size = .ok p) ∧
      ∀ e, Program.assemble source size = .error e →
        ∃ e', Program.assemble source' size = .error e' ∧ Corresponds f e e' := by
  constructor
  · intro p hp
    exact assemble_eq_ok_iff.2 (h.follows.assembles (assemble_eq_ok_iff.1 hp))
  · intro e he
    obtain ⟨e', he', hcorresponds⟩ := h.follows.refuses (assemble_eq_error_iff.1 he)
    exact ⟨e', assemble_eq_error_iff.2 he', hcorresponds⟩

/-- A datum outside memory, on the second line and after the edits on the third. -/
theorem assemble_edited_of_outside :
    Edits "INC\n:0x9:1".toList (shift 0 1) "# one\ninc\r\n\t:0X9:1 # far".toList ∧
      ∃ text, Program.assemble "# one\ninc\r\n\t:0X9:1 # far" 4 =
        .error (.dataOutOfRange 3 text 9) := by
  have hinsert : Edit "INC\n:0x9:1".toList (shift 0 1) "# one\nINC\n:0x9:1".toList := by
    refine @Edit.insert [] "# one\n".toList "INC\n:0x9:1".toList (by simp [StartsLine]) ?_ ?_
    · exact .inl fun c hc => (Option.some.inj hc).symm
    · intro line hline
      obtain rfl : line = "# one".toList := List.mem_singleton.1 hline
      exact isCode_iff.2 rfl
  have hrecase : Edit "# one\nINC\n:0x9:1".toList id "# one\ninc\n:0X9:1".toList :=
    .recase (capitals_eq_iff.1 (by decide))
  have hreturn : Edit "# one\ninc\n:0X9:1".toList id "# one\ninc\r\n:0X9:1".toList :=
    @Edit.returnFeed "# one\ninc".toList ":0X9:1".toList
  have hindent : Edit "# one\ninc\r\n:0X9:1".toList id "# one\ninc\r\n\t:0X9:1".toList :=
    @Edit.indent "# one\ninc\r\n".toList "\t".toList ":0X9:1".toList
      (fun c hc => (Option.some.inj hc).symm) (by decide) (by simp [Gap])
  have hend (cs : List Char) (h : cs.getLast? = some '1' ∨ cs.getLast? = some ' ') :
      EndsLine cs [] := by
    refine .last fun hstart => ?_
    rcases h with h | h
    · exact absurd (hstart _ h) (by decide)
    · exact absurd (hstart _ h) (by decide)
  have htrail : Edit "# one\ninc\r\n\t:0X9:1".toList id "# one\ninc\r\n\t:0X9:1 ".toList :=
    @Edit.trail "# one\ninc\r\n\t:0X9:1".toList " ".toList [] (hend _ (.inl rfl)) (by simp [Gap])
  have hcomment : Edit "# one\ninc\r\n\t:0X9:1 ".toList id
      "# one\ninc\r\n\t:0X9:1 # far".toList :=
    @Edit.comment "# one\ninc\r\n\t:0X9:1 ".toList " far".toList [] (hend _ (.inr rfl)) (by decide)
  have hedits : Edits "INC\n:0x9:1".toList (shift 0 1)
      "# one\ninc\r\n\t:0X9:1 # far".toList :=
    .step (.step (.step (.step (.step (.step (.refl _) hinsert) hrecase) hreturn) hindent) htrail)
      hcomment
  have herror : Program.assemble "INC\n:0x9:1" 4 = .error (.dataOutOfRange 2 ":0x9:1" 9) := rfl
  obtain ⟨e', he', hcorresponds⟩ := (assemble_edited hedits 4).2 _ herror
  cases hcorresponds
  exact ⟨hedits, _, he'⟩

end AccumulatorMachine.Assembly
