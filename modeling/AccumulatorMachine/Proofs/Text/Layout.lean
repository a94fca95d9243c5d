import AccumulatorMachine.Text.Blank
import AccumulatorMachine.Text.Lines
import Mathlib.Data.List.DropRight

/-! # The layout of a text

Trimming and cutting into lines, each said a second time without the function that does it:

* `Trims cs t`: `t` is what is left of `cs` without the blanks at its ends (`trims_iff`).
* `Splits cs ls`: `ls` are the lines that make up `cs` (`splits_iff`).
-/

namespace AccumulatorMachine.Text
set_option autoImplicit false

/-! ## Blanks at the ends -/

def Blanks (cs : List Char) : Prop := ∀ c ∈ cs, isBlank c = true

/-- A text without blanks at its ends. -/
structure Tight (cs : List Char) : Prop where
  head : ∀ c ∈ cs.head?, isBlank c = false
  last : ∀ c ∈ cs.getLast?, isBlank c = false

/-- `t` is `cs` without the blanks at its ends. -/
def Trims (cs t : List Char) : Prop :=
  ∃ before after, cs = before ++ t ++ after ∧ Blanks before ∧ Blanks after ∧ Tight t

theorem Tight.of_forall {cs : List Char} (h : ∀ c ∈ cs, isBlank c = false) : Tight cs :=
  ⟨fun c hc => h c (List.mem_of_mem_head? hc), fun c hc => h c (List.mem_of_mem_getLast? hc)⟩

/-- Nothing between two tight texts shows at the ends. -/
theorem Tight.append {a b : List Char} (ha : Tight a) (hb : Tight b) (ha0 : a ≠ []) (hb0 : b ≠ [])
    (cs : List Char) : Tight (a ++ cs ++ b) where
  head c hc := by
    rw [List.append_assoc, List.head?_append_of_ne_nil _ ha0] at hc
    exact ha.head c hc
  last c hc := by
    rw [List.getLast?_append_of_ne_nil _ hb0] at hc
    exact hb.last c hc

theorem Tight.trims {cs : List Char} (h : Tight cs) : Trims cs cs :=
  ⟨[], [], by simp, by simp [Blanks], by simp [Blanks], h⟩

/-- A text without blanks at its ends does not end with blanks. -/
theorem Tight.eq_nil_of_append {cs after : List Char} (h : Tight (cs ++ after)) (ha : Blanks after) :
    after = [] := by
  cases hlast : after.getLast? with
  | none => exact List.getLast?_eq_none_iff.1 hlast
  | some c =>
    have hwhole : (cs ++ after).getLast? = some c := by
      rw [List.getLast?_append, hlast, Option.some_or]
    have hblank := ha c (List.mem_of_mem_getLast? hlast)
    rw [h.last c hwhole] at hblank
    exact absurd hblank Bool.false_ne_true

theorem trimStart_of_head {cs : List Char} (h : ∀ c ∈ cs.head?, isBlank c = false) :
    trimStart cs = cs := by
  cases cs with
  | nil => rfl
  | cons c cs => exact List.dropWhile_cons_of_neg (by simp [h c rfl])

theorem trimEnd_of_last {cs : List Char} (h : ∀ c ∈ cs.getLast?, isBlank c = false) :
    trimEnd cs = cs := by
  have hr : cs.reverse.dropWhile isBlank = cs.reverse :=
    trimStart_of_head fun c hc => h c (by simpa using hc)
  rw [trimEnd, hr, List.reverse_reverse]

theorem trimStart_append {before : List Char} (h : Blanks before) (cs : List Char) :
    trimStart (before ++ cs) = trimStart cs :=
  List.dropWhile_append_of_pos h

theorem trimEnd_append {after : List Char} (h : Blanks after) (cs : List Char) :
    trimEnd (cs ++ after) = trimEnd cs := by
  have hr : Blanks after.reverse := fun c hc => h c (List.mem_reverse.1 hc)
  rw [trimEnd, trimEnd, List.reverse_append]
  exact congrArg List.reverse (List.dropWhile_append_of_pos hr)

theorem Tight.trim {cs : List Char} (h : Tight cs) : trim cs = cs := by
  rw [Text.trim, trimStart_of_head h.head, trimEnd_of_last h.last]

theorem trim_blanks {cs : List Char} (h : Blanks cs) : trim cs = [] := by
  have hs := trimStart_append h []
  rw [List.append_nil] at hs
  rw [trim, hs]
  rfl

theorem Trims.trim_eq {cs t : List Char} (h : Trims cs t) : trim cs = t := by
  obtain ⟨before, after, rfl, hb, ha, ht⟩ := h
  rw [trim, List.append_assoc, trimStart_append hb]
  cases t with
  | nil => exact trim_blanks ha
  | cons c cs =>
    have hhead : ∀ d ∈ (c :: cs ++ after).head?, isBlank d = false := fun d hd => ht.head d hd
    rw [trimStart_of_head hhead, trimEnd_append ha, trimEnd_of_last ht.last]

theorem trims_trim (cs : List Char) : Trims cs (trim cs) := by
  have hs : cs = cs.takeWhile isBlank ++ trimStart cs := List.takeWhile_append_dropWhile.symm
  have he : trimStart cs = trim cs ++ (trimStart cs).rtakeWhile isBlank :=
    List.rdropWhile_append_rtakeWhile.symm
  refine ⟨cs.takeWhile isBlank, (trimStart cs).rtakeWhile isBlank, ?_, ?_, ?_, ?_, ?_⟩
  · rw [List.append_assoc, ← he, ← hs]
  · exact fun c hc => List.all_eq_true.1 List.all_takeWhile c hc
  · exact fun c hc => List.mem_rtakeWhile_imp hc
  · intro c hc
    -- the first character of the trimmed text is the first one after the leading blanks
    have hhead : (trimStart cs).head? = some c := by
      rw [he, List.head?_append, Option.mem_def.1 hc, Option.some_or]
    have hnot := List.head?_dropWhile_not isBlank cs
    rw [show cs.dropWhile isBlank = trimStart cs from rfl, hhead] at hnot
    simpa using hnot
  · intro c hc
    have hne : trim cs ≠ [] := by
      rintro h0
      simp [h0] at hc
    have hlast : ¬isBlank ((trim cs).getLast hne) = true :=
      List.rdropWhile_last_not isBlank (trimStart cs) hne
    rw [List.getLast?_eq_some_getLast hne, Option.mem_some_iff] at hc
    rw [hc] at hlast
    simpa using hlast

/-- Trimming gives the one text that the blanks stand around. -/
theorem trims_iff {cs t : List Char} : Trims cs t ↔ trim cs = t :=
  ⟨Trims.trim_eq, fun h => h ▸ trims_trim cs⟩

theorem tight_trim (cs : List Char) : Tight (trim cs) := by
  obtain ⟨_, _, _, _, _, h⟩ := trims_trim cs
  exact h

/-! ## Lines -/

/-- `Splits cs ls`: the text `cs` is made of the lines `ls`. A line ends at the first line feed;
one carriage return right before it belongs to the end of the line and not to the line. The last
line may lack its end, but then it is not empty. -/
inductive Splits : List Char → List (List Char) → Prop
  | nil : Splits [] []
  | last {line : List Char} : line ≠ [] → '\n' ∉ line → Splits line [line]
  | feed {line rest : List Char} {ls : List (List Char)} : '\n' ∉ line →
      line.getLast? ≠ some '\r' → Splits rest ls → Splits (line ++ '\n' :: rest) (line :: ls)
  | returnFeed {line rest : List Char} {ls : List (List Char)} : '\n' ∉ line →
      Splits rest ls → Splits (line ++ '\r' :: '\n' :: rest) (line :: ls)

theorem lines_last {line : List Char} (h0 : line ≠ []) (h : '\n' ∉ line) : lines line = [line] := by
  induction line with
  | nil => exact absurd rfl h0
  | cons c cs ih =>
    simp only [List.mem_cons, not_or] at h
    have hr : ¬(c = '\r' ∧ cs.head? = some '\n') := fun hc => h.2 (List.mem_of_mem_head? hc.2)
    rw [lines_cons (Ne.symm h.1) hr]
    cases cs with
    | nil => rfl
    | cons d ds => rw [ih (by simp) h.2]

theorem lines_feed {line : List Char} (h : '\n' ∉ line) (hlast : line.getLast? ≠ some '\r')
    (rest : List Char) : lines (line ++ '\n' :: rest) = line :: lines rest := by
  induction line with
  | nil => exact lines_newline rest
  | cons c cs ih =>
    simp only [List.mem_cons, not_or] at h
    have hr : ¬(c = '\r' ∧ (cs ++ '\n' :: rest).head? = some '\n') := by
      rintro ⟨rfl, hhead⟩
      cases cs with
      | nil => simp at hlast
      | cons d ds =>
        simp only [List.cons_append, List.head?_cons, Option.some.injEq] at hhead
        simp [hhead] at h
    have hlast' : cs.getLast? ≠ some '\r' := by
      cases cs with
      | nil => simp
      | cons d ds => simpa using hlast
    rw [List.cons_append, lines_cons (Ne.symm h.1) hr, ih h.2 hlast']

theorem lines_returnFeed {line : List Char} (h : '\n' ∉ line) (rest : List Char) :
    lines (line ++ '\r' :: '\n' :: rest) = line :: lines rest := by
  induction line with
  | nil => exact lines_return_newline rest
  | cons c cs ih =>
    simp only [List.mem_cons, not_or] at h
    have hr : ¬(c = '\r' ∧ (cs ++ '\r' :: '\n' :: rest).head? = some '\n') := by
      rintro ⟨-, hhead⟩
      cases cs with
      | nil => simp at hhead
      | cons d ds =>
        simp only [List.cons_append, List.head?_cons, Option.some.injEq] at hhead
        simp [hhead] at h
    rw [List.cons_append, lines_cons (Ne.symm h.1) hr, ih h.2]

theorem Splits.lines_eq {cs : List Char} {ls : List (List Char)} (h : Splits cs ls) :
    lines cs = ls := by
  induction h with
  | nil => rfl
  | last h0 h => exact lines_last h0 h
  | feed h hlast _ ih => rw [lines_feed h hlast, ih]
  | returnFeed h _ ih => rw [lines_returnFeed h, ih]

theorem exists_splits (cs : List Char) : ∃ ls, Splits cs ls := by
  induction hn : cs.length using Nat.strong_induction_on generalizing cs with
  | _ n ih =>
    cases hcut : cutAt '\n' cs with
    | none =>
      by_cases h0 : cs = []
      · exact ⟨[], h0 ▸ Splits.nil⟩
      · exact ⟨[cs], Splits.last h0 (cutAt_eq_none_iff.1 hcut)⟩
    | some parts =>
      obtain ⟨line, rest⟩ := parts
      obtain ⟨rfl, hline⟩ := eq_append_of_cutAt hcut
      have hlen : rest.length < n := by
        rw [← hn, List.length_append, List.length_cons]
        omega
      obtain ⟨ls, hls⟩ := ih rest.length hlen rest rfl
      by_cases hlast : line.getLast? = some '\r'
      · obtain ⟨short, rfl⟩ := List.getLast?_eq_some_iff.1 hlast
        have hshort : '\n' ∉ short := fun hmem => hline (List.mem_append_left _ hmem)
        refine ⟨short :: ls, ?_⟩
        rw [List.append_assoc, List.singleton_append]
        exact Splits.returnFeed hshort hls
      · exact ⟨line :: ls, Splits.feed hline hlast hls⟩

/-- Cutting into lines gives the lines that make up the text. -/
theorem splits_iff {cs : List Char} {ls : List (List Char)} : Splits cs ls ↔ lines cs = ls := by
  refine ⟨Splits.lines_eq, ?_⟩
  rintro rfl
  obtain ⟨ls, hls⟩ := exists_splits cs
  exact hls.lines_eq ▸ hls

/-- Texts without line ends, each with a line feed after it, are lines before those of the rest. -/
theorem Splits.flatMap_append {rest : List Char} {ls ls' : List (List Char)} (hrest : Splits rest ls')
    (h : ∀ l ∈ ls, '\n' ∉ l ∧ '\r' ∉ l) :
    Splits (ls.flatMap (· ++ ['\n']) ++ rest) (ls ++ ls') := by
  induction ls with
  | nil => exact hrest
  | cons l ls ih =>
    rw [List.forall_mem_cons] at h
    have hlast : l.getLast? ≠ some '\r' := fun hr => h.1.2 (List.mem_of_mem_getLast? hr)
    have hfeed := Splits.feed h.1.1 hlast (ih h.2)
    rw [List.flatMap_cons, List.append_assoc, List.append_assoc]
    exact hfeed

theorem splits_flatMap {ls : List (List Char)} (h : ∀ l ∈ ls, '\n' ∉ l ∧ '\r' ∉ l) :
    Splits (ls.flatMap (· ++ ['\n'])) ls := by
  have hall := Splits.nil.flatMap_append h
  rw [List.append_nil, List.append_nil] at hall
  exact hall

end AccumulatorMachine.Text
