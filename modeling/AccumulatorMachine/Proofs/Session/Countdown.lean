import AccumulatorMachine.Proofs.Machine.Countdown
import AccumulatorMachine.Proofs.Session.Completion
import AccumulatorMachine.Proofs.Text.Decimal

/-! # A program that counts down

The source text of a loop that counts a cell down to zero (`countdownText`), all the way through
assembly, loading and execution. The line of the counter may be any that puts a number into the
cell, and how the run goes is said by the sixteen low bits of that number
(`Session.countdown_exact`).
-/

namespace AccumulatorMachine
set_option autoImplicit false
open Text Assembly

/-! ## The source text -/

/-- The lines after that of the counter. -/
def countdownLoop : List String :=
  ["            :101:1          # constant one",
    "        LOOP:",
    "            LDA 100",
    "            BRZ END",
    "            SUB 101",
    "            STO 100",
    "            ZRO",
    "            BRZ LOOP",
    "        END:",
    "            NOP"]

/-- The source text with this line for the counter. It ends with a line of blanks. -/
def countdownText (counter : String) : String :=
  unlines ("" :: counter :: countdownLoop) ++ "        "

theorem Assembly.forall₂_isLine_of_map {texts : List (List Char)} {ls : List Line}
    (h : texts.map readLine = ls.map some) : List.Forall₂ IsLine texts ls := by
  rw [← List.forall₂_eq_eq_eq, List.forall₂_map_left_iff, List.forall₂_map_right_iff] at h
  exact h.imp fun _ _ => readLine_eq_some_iff.1

namespace Countdown

/-! ## What the lines say -/

/-- What the lines say that come before the label `END`, but for the counter. -/
def body : List Line :=
  [.data (.number 101) (.number 1), .label "LOOP" none, .command ⟨.lda, some (.number 100)⟩,
    .command ⟨.brz, some (.name "END")⟩, .command ⟨.alu .sub, some (.number 101)⟩,
    .command ⟨.sto, some (.number 100)⟩, .command ⟨.accu .zro, none⟩,
    .command ⟨.brz, some (.name "LOOP")⟩]

def closing : List Line := [.label "END" none, .command ⟨.nop, none⟩, .blank]

/-- What all lines say, with the number `v` for the counter. -/
def saying (v : Int) : List Line :=
  .blank :: .data (.number 100) (.number v) :: (body ++ closing)

/-- The text is one line, and puts the number `v` into the counter. -/
structure CounterLine (v : Int) (text : String) : Prop where
  line : IsLine text.toList (.data (.number 100) (.number v))
  feed : '\n' ∉ text.toList
  notReturn : '\r' ∉ text.toList

theorem counterLine_of_number {literal : String} {v : Int} (h : IsNumber literal.toList v) :
    CounterLine v (":100:" ++ literal) := by
  have htext : (":100:" ++ literal).toList = ':' :: (['1', '0', '0'] ++ ':' :: literal.toList) := by
    simp
  -- what ends a line or begins a comment comes before every character of it
  have hlow : ∀ c ∈ (":100:" ++ literal).toList, 36 ≤ c.toNat := by
    rw [htext, List.forall_mem_cons, List.forall_mem_append]
    refine ⟨by decide, by simp, ?_⟩
    rw [List.forall_mem_cons]
    exact ⟨by decide, fun c hc => (h.toNat_le c hc).1⟩
  have hnot {c : Char} (hc : c.toNat < 36) : c ∉ (":100:" ++ literal).toList :=
    fun hmem => Nat.not_lt.2 (hlow c hmem) hc
  have haddress : IsOperand ['1', '0', '0'] (.number 100) :=
    .number (.plain (.decimal (isNumeral_toString 100)) (by decide))
  have hcomment : '#' ∉ (":100:" ++ literal).toList := hnot (by decide)
  refine ⟨?_, hnot (by decide), hnot (by decide)⟩
  rw [htext] at hcomment ⊢
  exact isLine_data haddress (.number h) (by decide) hcomment

variable {counter : String} {v : Int}

theorem exists_reads (h : CounterLine v counter) :
    ∃ texts, Reads (countdownText counter) texts (saying v) := by
  have hlast : Splits "        ".toList ["        ".toList] := .last (by decide) (by decide)
  have hloop : ∀ l ∈ countdownLoop.map String.toList, '\n' ∉ l ∧ '\r' ∉ l := by decide
  have hends : ∀ l ∈ ("" :: counter :: countdownLoop).map String.toList, '\n' ∉ l ∧ '\r' ∉ l := by
    rw [List.map_cons, List.map_cons, List.forall_mem_cons, List.forall_mem_cons]
    exact ⟨by decide, ⟨h.feed, h.notReturn⟩, hloop⟩
  have hlines : List.Forall₂ IsLine (countdownLoop.map String.toList ++ ["        ".toList])
      (body ++ closing) := forall₂_isLine_of_map rfl
  have hnames : names (saying v) = ["LOOP", "END"] := rfl
  refine ⟨("" :: counter :: countdownLoop).map String.toList ++ ["        ".toList], ?_, ?_, ?_⟩
  · rw [countdownText, String.toList_append, toList_unlines]
    exact hlast.flatMap_append hends
  · exact .cons (readLine_eq_some_iff.1 rfl) (.cons h.line hlines)
  · rw [hnames]
    decide

theorem defines_loop (v : Int) : Defines (saying v) "LOOP" (.label 0) :=
  @Defines.label [.blank, .data (.number 100) (.number v), .data (.number 101) (.number 1)] _
    "LOOP" none

theorem defines_end (v : Int) : Defines (saying v) "END" (.label 6) :=
  @Defines.label (.blank :: .data (.number 100) (.number v) :: body) _ "END" none

theorem commandMeans (v : Int) :
    List.Forall₂ (CommandMeans (saying v)) (commands (saying v)) code := by
  have hnumber (k : Kind) (n : Nat) :
      CommandMeans (saying v) ⟨k, some (.number n)⟩ (.ofKind k (UInt16.ofNat (n % 4096))) :=
    .addressed (.number n)
  have hloop : CommandMeans (saying v) ⟨.brz, some (.name "LOOP")⟩ (.brz 0) :=
    .addressed (.label (defines_loop v))
  have hend : CommandMeans (saying v) ⟨.brz, some (.name "END")⟩ (.brz 6) :=
    .addressed (.label (defines_end v))
  exact .cons (hnumber .lda 100) (.cons hend (.cons (hnumber (.alu .sub) 101)
    (.cons (hnumber .sto 100) (.cons .bare (.cons hloop (.cons .bare .nil))))))

theorem datumMeans (v : Int) : List.Forall₂ (DatumMeans (saying v) 4096) (data (saying v))
    [(100, UInt16.ofInt v), (101, 1)] := by
  have hfits : 101 < 4096 := by omega
  refine .cons ⟨.number _, Nat.lt_of_succ_lt hfits, v, .number v, toNat_ofInt v⟩ (.cons ?_ .nil)
  exact ⟨.number _, hfits, 1, .number 1, rfl⟩

/-- The text is a program, whose instructions are the loop and whose data are its two cells. -/
theorem exists_assemble (h : CounterLine v counter) :
    ∃ p, Program.assemble (countdownText counter) 4096 = .ok p ∧ p.instructions = code ∧
      p.data = [(100, UInt16.ofInt v), (101, 1)] := by
  obtain ⟨texts, hreads⟩ := exists_reads h
  obtain ⟨d, -, hdescribes⟩ := Draft.exists_draft hreads
  have hlength : (commands (saying v)).length ≤ room 4096 := by
    show 7 ≤ min 4096 4096
    omega
  have hcontents := hdescribes.contents hlength (commandMeans v) (datumMeans v)
  exact ⟨_, assemble_eq_ok_iff.2 ⟨texts, saying v, hreads, hcontents⟩, rfl, rfl⟩

/-! ## The loaded loop -/

theorem at_of_load {s : Session} {p : Program} {text : String}
    (hload : (Session.ofSettings {}).load text = (s, .ok p)) (hcode : p.instructions = code)
    (hdata : p.data = [(100, UInt16.ofInt v), (101, 1)]) :
    At ⟨0, 0, UInt16.ofInt v, 0⟩ s.machine := by
  obtain ⟨-, hm⟩ := Session.machine_of_load hload
  have hbehind : ∀ d ∈ p.data, p.instructions.length ≤ d.1 := by
    rw [hcode, hdata]
    simp [code]
  obtain ⟨hholds, hsize⟩ := Session.holds_of_load hload hbehind
  have hfull : s.machine.memory.size = 4096 := hsize
  have hcounter : p.word? 100 = some (UInt16.ofInt v) := by
    simp [Program.word?, Program.datum?, hdata]
  have hone : p.word? 101 = some 1 := by
    simp [Program.word?, Program.datum?, hdata]
  rw [hcode] at hholds
  refine ⟨hholds, by omega, ?_, ?_, ?_, Session.word_of_load hload hcounter,
    Session.word_of_load hload hone, ?_⟩
  · rw [hm]
    show p.lastAddress = some 6
    rw [Program.lastAddress, hcode]
    rfl
  · rw [hm]
    rfl
  · rw [hm]
    rfl
  · rw [hm]
    rfl

end Countdown

/-! ## The whole way -/

namespace Session

/-- **The loop counts down from any number.** Every integer below 2^63 in magnitude can be written
for the counter, in decimal digits for one. Whatever line puts it there, the text is loaded. Where
`c` are the sixteen low bits of the number, a run with budget enough takes `6 * c + 3` instructions
and ends with the program done, the counter and the accumulator zero, and `c + 1` branches taken; a
run with less spends its budget and leaves the program unfinished. -/
theorem countdown_exact {v : Int} (hv : v.natAbs < magnitudeLimit) :
    IsNumber (toString v).toList v ∧
    (∀ literal : String, IsNumber literal.toList v →
      Countdown.CounterLine v (":100:" ++ literal)) ∧
    ∀ counter : String, Countdown.CounterLine v counter →
      let c := (v % 65536).toNat
      ∃ s p, (ofSettings {}).load (countdownText counter) = (s, .ok p) ∧ ∀ budget,
        let after := (s.run budget).1.machine
        (6 * c + 3 ≤ budget → (s.run budget).2 = .ok (6 * c + 3) ∧ after.isDone = true ∧
          after.memory.cells[100]? = some 0 ∧ after.memory.cells[101]? = some 1 ∧
          after.accumulator = 0 ∧ after.pc = 7 ∧ after.metrics.branches.toNat = c + 1) ∧
        (budget < 6 * c + 3 → (s.run budget).2 = .ok budget ∧ after.isDone = false) := by
  refine ⟨isNumber_toString hv, fun literal h => Countdown.counterLine_of_number h, ?_⟩
  intro counter hcounter c
  obtain ⟨p, hp, hcode, hdata⟩ := Countdown.exists_assemble hcounter
  have hfresh : (freshMachine {}).memory.size = 4096 := Memory.size_zeros _
  have hmachine : (freshMachine {}).load (countdownText counter) =
      .ok (p, (freshMachine {}).withProgram p) := by
    rw [Machine.load_eq_ok_iff, hfresh]
    exact ⟨hp, rfl⟩
  obtain ⟨s, hload⟩ : ∃ s, (ofSettings {}).load (countdownText counter) = (s, .ok p) :=
    ⟨_, load_eq_ok_iff.2 ⟨_, hmachine, rfl⟩⟩
  refine ⟨s, p, hload, ?_⟩
  intro budget after
  have hlow := toNat_ofInt v
  have hc : (UInt16.ofInt v).toNat = c := by omega
  have hafter : after = (s.machine.run budget).machine := rfl
  have hresult : (s.run budget).2 = (s.machine.run budget).result := rfl
  obtain ⟨hends, hspent⟩ := (Countdown.at_of_load hload hcode hdata).run budget
  rw [hc] at hends hspent
  rw [hafter, hresult]
  constructor
  · intro hle
    obtain ⟨m, hrun, hm⟩ := hends hle
    obtain ⟨hdone, hcounter, hone, haccumulator, hpc, hbranches⟩ := hm.seen
    rw [hrun]
    refine ⟨rfl, hdone, hcounter, hone, haccumulator, hpc, ?_⟩
    rw [hbranches, UInt64.toNat_ofNat']
    -- there are at most 65536 branches, which the count has room for
    omega
  · intro hlt
    obtain ⟨m, hrun, hgoes⟩ := hspent hlt
    rw [hrun]
    exact ⟨rfl, hgoes⟩

/-- A negative number in hexadecimal digits, of which the low sixteen bits count: the run takes
three rounds. -/
theorem countdown_exact_of_hexadecimal :
    ∃ s p, (ofSettings {}).load (countdownText ":100:-0xFFFD") = (s, .ok p) ∧
      (s.run 20).2 = .ok 20 ∧ (s.run 100).2 = .ok 21 ∧
      (s.run 100).1.machine.metrics.branches.toNat = 4 := by
  have hnumber : IsNumber "-0xFFFD".toList (-65533) := readNumber_eq_some_iff.1 rfl
  obtain ⟨-, hcounter, hruns⟩ := countdown_exact (v := -65533) (by decide)
  obtain ⟨s, p, hload, hrun⟩ := hruns ":100:-0xFFFD" (hcounter "-0xFFFD" hnumber)
  obtain ⟨hresult, -, -, -, -, -, hbranches⟩ := (hrun 100).1 (by decide)
  exact ⟨s, p, hload, ((hrun 20).2 (by decide)).1, hresult, hbranches⟩

end Session
end AccumulatorMachine
