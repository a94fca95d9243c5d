import AccumulatorMachine.Debugger.Basic
import AccumulatorMachine.Memory.Row

/-! # The debugger's screen

The screen is a grid of characters with styles. It is made of framed panels in two columns: the
program, the registers and the status on the left, memory, the control lines and the keys on the
right. Text that does not fit is cut. Every character is one column wide.
-/

namespace AccumulatorMachine
set_option autoImplicit false
open Text

/-! ## Cells and rows -/

inductive Colour
  | blue
  | cyan
  | darkGray
  | green
  | magenta
  | red
  | white
  | yellow
deriving DecidableEq

def Colour.name : Colour → String
  | blue => "Blue"
  | cyan => "Cyan"
  | darkGray => "DarkGray"
  | green => "Green"
  | magenta => "Magenta"
  | red => "Red"
  | white => "White"
  | yellow => "Yellow"

/-- How a character looks. The colour may be the terminal's own. -/
structure Style where
  colour : Option Colour := none
  bold : Bool := false
deriving DecidableEq

def Colour.style (c : Colour) : Style := { colour := some c }

structure Cell where
  char : Char := ' '
  style : Style := {}
deriving DecidableEq

abbrev Row := List Cell

def cells (text : String) (style : Style) : Row := text.toList.map fun c => ⟨c, style⟩

/-- The cells of a text in the terminal's own style. -/
def plain (text : String) : Row := cells text {}

/-- A stretch of a row in one style that is not the terminal's own. -/
structure Stretch where
  start : Nat
  length : Nat
  style : Style
deriving DecidableEq

namespace Row

/-- The text of a row without the blanks at its end. -/
def text (row : Row) : String :=
  String.ofList ((row.map Cell.char).reverse.dropWhile (· == ' ')).reverse

/-- The longest stretches of one style, the first cell being in column `start`. -/
def stretchesFrom (start : Nat) : Row → List Stretch
  | [] => []
  | cell :: rest =>
    match stretchesFrom (start + 1) rest with
    | next :: others =>
      if next.start = start + 1 ∧ next.style = cell.style then
        ⟨start, next.length + 1, cell.style⟩ :: others
      else ⟨start, 1, cell.style⟩ :: next :: others
    | [] => [⟨start, 1, cell.style⟩]

def stretches (row : Row) : List Stretch :=
  (stretchesFrom 0 row).filter fun s => s.style ≠ {}

end Row

/-! ## Panels -/

/-- A line inside a panel: its cells, and the style of the rest of the line. -/
structure PanelLine where
  cells : Row
  rest : Style := {}

/-- A framed panel. Its ground is the style of all cells that have no style of their own. -/
structure Panel where
  title : String
  frame : Style := {}
  ground : Style := {}
  lines : List PanelLine

namespace Panel

def fit (width : Nat) (style : Style) (row : Row) : Row :=
  (row.take width).rightpad width ⟨' ', style⟩

def inside (p : Panel) (width index : Nat) : Row :=
  match p.lines[index]? with
  | some line => fit width line.rest line.cells
  | none => fit width {} []

/-- The frame and the lines of a panel whose inside is `width` by `height`. -/
def framed (p : Panel) (width height : Nat) : List Row :=
  let edge (c : Char) : Cell := ⟨c, p.frame⟩
  let title := (cells p.title p.frame).take width
  let top := [edge '┌'] ++ title.rightpad width (edge '─') ++ [edge '┐']
  let body := (List.range height).map fun index => [edge '│'] ++ p.inside width index ++ [edge '│']
  let bottom := [edge '└'] ++ List.replicate width (edge '─') ++ [edge '┘']
  [top] ++ body ++ [bottom]

def rows (p : Panel) (width height : Nat) : List Row :=
  (p.framed (width - 2) (height - 2)).map fun row =>
    row.map fun cell => if cell.style = {} then { cell with style := p.ground } else cell

end Panel

/-! ## The panels of the debugger -/

namespace Debugger

/-- The style of the line at the program counter. -/
def currentStyle : Style := { colour := some .yellow, bold := true }

def codePanel (d : Debugger) (height : Nat) : Panel :=
  let line (row : CodeRow) : PanelLine :=
    let isBreakpoint := d.breakpoints.contains row.address
    let style :=
      if row.isCurrent then currentStyle
      else if isBreakpoint then Colour.red.style
      else {}
    let text := (if isBreakpoint then "●" else " ") ++ " " ++ (if row.isCurrent then "▶ " else "  ") ++
      decimal4 row.address.toNat ++ ": " ++ row.text
    { cells := cells text style, rest := style }
  { title := " Disassembly ", frame := Colour.cyan.style, lines := (d.code (height - 2)).map line }

def registersPanel (d : Debugger) : Panel :=
  let m := d.machine
  let phaseStyle :=
    match m.phase with
    | .idle => Colour.green.style
    | .firstPhaseDone => Colour.yellow.style
  let branch :=
    match m.snapshot.branchTaken with
    | some true => "  (branch taken)"
    | some false => "  (branch not taken)"
    | none => ""
  let lines : List Row :=
    [plain "ACCU: " ++ cells m.accumulator.binary Colour.white.style ++
        plain (" = " ++ toString m.accumulator.toNat ++ " (0x" ++ m.accumulator.hex ++ ")"),
      plain "PC:   " ++ cells (decimal4 m.pc.toNat) Colour.yellow.style ++ plain "   Phase: " ++
        cells m.phase.name phaseStyle,
      plain "Instructions: " ++
        cells (toString m.metrics.instructions.toNat) Colour.cyan.style ++ plain "   Branches: " ++
        cells (toString m.metrics.branches.toNat) Colour.cyan.style,
      plain ("Last: " ++ (m.snapshot.instruction.map Instruction.text).getD "-" ++ branch)]
  { title := " Registers ", frame := Colour.green.style, lines := lines.map ({ cells := · }) }

def statusPanel (d : Debugger) : Panel :=
  { title := " Status ", ground := Colour.white.style, lines := [{ cells := plain d.status.text }] }

def memoryPanel (d : Debugger) (height : Nat) : Panel :=
  let memory := d.machine.memory
  let stop := min (d.scroll + (height - 2)) memory.size
  let line (row : MemoryRow) : PanelLine :=
    let style :=
      if row.address = d.machine.pc.toNat then currentStyle
      else if row.unsigned ≠ 0 then Colour.white.style
      else Colour.darkGray.style
    { cells := cells row.text style, rest := style }
  let rows := (memory.rowsFrom d.scroll (stop - d.scroll)).toOption.getD []
  { title := " Memory ", frame := Colour.magenta.style, lines := rows.map line }

def signalCells (s : Signal × Bool) : Row :=
  cells (padEnd ' ' 11 s.1.name)
    (if s.2 then { colour := some .green, bold := true } else Colour.darkGray.style)

def controlPanel (d : Debugger) : Panel :=
  let title :=
    match d.current? with
    | some i => " Control: " ++ i.mnemonic ++ " "
    | none => " Control "
  let lines := [d.signals.take 6, d.signals.drop 6]
  { title, frame := Colour.blue.style, lines := lines.map fun row => { cells := row.flatMap signalCells } }

def helpPanel : Panel :=
  { title := " Help ", ground := Colour.darkGray.style,
    lines :=
      [{ cells := plain "s: Step  h: Half-step  r: Run  p: Pause  b: Breakpoint" },
        { cells := plain "x: Reset  ↑↓/PgUp/PgDn: Scroll memory  q: Quit" }] }

/-- The screen, `width` by `height`. The left column has 55 hundredths of the width. -/
def screen (d : Debugger) (width height : Nat) : List Row :=
  let leftWidth := width * 55 / 100
  let rightWidth := width - leftWidth
  let left := (d.codePanel (height - 11)).rows leftWidth (height - 11) ++
    d.registersPanel.rows leftWidth 8 ++ d.statusPanel.rows leftWidth 3
  let right := (d.memoryPanel (height - 12)).rows rightWidth (height - 12) ++
    d.controlPanel.rows rightWidth 8 ++ helpPanel.rows rightWidth 4
  left.zipWith (· ++ ·) right

end Debugger

end AccumulatorMachine
