/-! # Lines

Cutting a text into lines. A line ends with a line feed, which may have a carriage return before
it; what follows the last line feed is a line of its own unless it is empty. A carriage return
anywhere else belongs to its line. `lines_newline`, `lines_return_newline` and `lines_cons` are
the rules by which a text is read from its start.
-/

namespace AccumulatorMachine.Text
set_option autoImplicit false

/-- Puts `c` before a text whose first character and lines are given. -/
def addChar (c : Char) (after : Option Char × List (List Char)) : Option Char × List (List Char) :=
  let cut :=
    if c = '\n' then [] :: after.2
    else if c = '\r' ∧ after.1 = some '\n' then after.2
    else
      match after.2 with
      | [] => [[c]]
      | line :: rest => (c :: line) :: rest
  (some c, cut)

/-- The lines of a text, without their ends. -/
def lines (cs : List Char) : List (List Char) := (cs.foldr addChar (none, [])).2

theorem foldr_addChar_fst (cs : List Char) : (cs.foldr addChar (none, [])).1 = cs.head? := by
  cases cs <;> rfl

@[simp] theorem lines_nil : lines [] = [] := rfl

@[simp] theorem lines_newline (cs : List Char) : lines ('\n' :: cs) = [] :: lines cs := rfl

@[simp] theorem lines_return_newline (cs : List Char) :
    lines ('\r' :: '\n' :: cs) = [] :: lines cs := rfl

theorem lines_cons {c : Char} {cs : List Char} (hc : c ≠ '\n')
    (hr : ¬(c = '\r' ∧ cs.head? = some '\n')) :
    lines (c :: cs) =
      match lines cs with
      | [] => [[c]]
      | line :: rest => (c :: line) :: rest := by
  rw [← foldr_addChar_fst] at hr
  simp only [lines, List.foldr_cons, addChar, if_neg hc, if_neg hr]

end AccumulatorMachine.Text
