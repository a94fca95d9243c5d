import AccumulatorMachine.Proofs.Debugger.Driven
import AccumulatorMachine.Proofs.Debugger.Trace
import AccumulatorMachine.Proofs.Machine.Intact
import AccumulatorMachine.Proofs.Session.Completion

/-! # What a loaded program executes

A debugger that is only driven begins no instruction past the end of its program, and a reset takes
it back to where its program was loaded. So what lasts through strides and runs, and holds of the
loaded program, holds of the debugger and its trace (`Debugger.lasts_drivenBy`). For a program that
does not change itself this means that it is executed as it was written.
-/

namespace AccumulatorMachine.Debugger
set_option autoImplicit false

/-! ## Histories that only drive -/

/-- Every action of the history only drives the program. -/
def DrivenBy (start : Debugger) : List Action → Prop
  | [] => True
  | a :: earlier => start.DrivenBy earlier ∧ (start.after earlier).Drives a

section
variable {start : Debugger} {history earlier : List Action}

theorem DrivenBy.driven (h : start.DrivenBy history) : start.Driven (start.after history) := by
  induction history with
  | nil => exact .start
  | cons a earlier ih => exact .act (ih h.1) h.2

theorem DrivenBy.of_suffix (h : start.DrivenBy history) (hearlier : earlier <:+ history) :
    start.DrivenBy earlier := by
  induction history with
  | nil =>
    rw [List.suffix_nil.1 hearlier]
    trivial
  | cons a rest ih =>
    obtain rfl | hrest := List.suffix_cons_iff.1 hearlier
    · exact h
    · exact ih h.1 hrest

end

/-! ## What lasts -/

section
variable {s : Session} {text : String} {p : Program} {start : Debugger} {history : List Action}
  {P : List Half → Machine → Prop}

theorem lasts_press {d : Debugger} {done : List Half} (hP : Machine.Lasting P)
    (h : P done d.machine) (k : Key) :
    P (((d.request? (.press k)).map (d.session.traced done)).getD done) (d.press k).machine := by
  rw [machine, press_session, request?]
  cases hasks : d.asks? k with
  | none => exact h
  | some x => exact Session.lasts_stride hP h (asks?_isDone hasks)

theorem lasts_drivenBy (hload : s.load text = (start.session, .ok p)) (hP : Machine.Lasting P)
    (hstart : P [] start.machine) (h : start.DrivenBy history) :
    P (start.trace history) (start.after history).machine := by
  induction history with
  | nil => exact hstart
  | cons a earlier ih =>
    obtain ⟨hearlier, hdrives⟩ := h
    have hbefore := ih hearlier
    rw [trace_cons]
    cases a with
    | press k => exact lasts_press hP hbefore k
    | reset =>
      have hkeeps := hearlier.driven.keeps hload
      show P [] (start.after earlier).reset.session.machine
      rw [reset_session, Session.reset_of_source hload hkeeps.settings hkeeps.source]
      exact hstart
    | operate o =>
      cases o with
      | run budget => exact Session.lasts_run hP hbefore budget
      | runToEnd patience => exact Session.lasts_runToEnd hP hbefore patience
      | load | insert | reset | stride | execute | jump | write | setRegisters | setMemory =>
        exact hdrives.elim

end

/-! ## Programs that do not change themselves -/

section
variable {s : Session} {text : String} {p : Program} {start : Debugger} {history : List Action}

theorem intact_of_drivenBy (hload : s.load text = (start.session, .ok p)) (hapart : p.Apart)
    (h : start.DrivenBy history) :
    Machine.Intact p start.machine.memory (start.trace history) (start.after history).machine := by
  obtain ⟨hassemble, hm⟩ := Session.machine_of_load hload
  obtain ⟨hholds, -⟩ := Session.holds_of_load hload hapart.data
  have hlast : start.machine.lastAddress = p.lastAddress := by
    rw [machine, hm]
    rfl
  refine lasts_drivenBy hload (Machine.lasting_intact hassemble hapart) ?_ h
  exact ⟨hlast, rfl, hholds.word, by simp, fun _ _ => rfl⟩

/-- **A program that does not change itself is executed as it was written.** Let the data of a
loaded program lie behind its instructions, and what its instructions store as well. Wherever
driving it leads, its instructions stand at the beginning of memory as they were loaded. Whatever
first half has been executed on the way, before a reset or since, was at the address of an
instruction and executed that one. The cells that none of those since the last reset has stored hold
what was loaded. -/
theorem executed_as_written (hload : s.load text = (start.session, .ok p)) (hapart : p.Apart)
    (hdrives : start.DrivenBy history) :
    let memory := (start.after history).machine.memory
    (∀ k i, p.instructions[k]? = some i → memory.read k = .ok i.encode) ∧
    (∀ earlier, earlier <:+ history → ∀ pc i before, .executed pc i before ∈ start.trace earlier →
      pc.toNat < p.instructions.length ∧ p.instructions[pc.toNat]? = some i) ∧
    ∀ a, (∀ h ∈ start.trace history, h.stored? ≠ some a) →
      memory.read a = start.machine.memory.read a := by
  intro memory
  have hintact := intact_of_drivenBy hload hapart hdrives
  have hsize : memory.size = start.machine.memory.size := hintact.size
  refine ⟨fun k i hi => ?_, fun earlier hearlier pc i before hmem => ?_, fun a ha => ?_⟩
  · obtain ⟨hholds, -⟩ := Session.holds_of_load hload hapart.data
    have hroom : p.instructions.length ≤ start.machine.memory.size := hholds.room
    have hk : k < p.instructions.length := (List.getElem?_eq_some_iff.1 hi).1
    rw [Memory.read_eq, if_pos (by omega), hintact.code k i hi]
  · have hexecuted := (intact_of_drivenBy hload hapart (hdrives.of_suffix hearlier)).executed
    have hget := hexecuted pc i before hmem
    exact ⟨(List.getElem?_eq_some_iff.1 hget).1, hget⟩
  · rw [Memory.read_eq, Memory.read_eq, hsize, hintact.untouched a ha, Memory.faultAt_congr hsize]

end

/-- A debugger of a memory of four words, whose program stores behind its two instructions and
before a word of data. -/
def storing : Debugger :=
  { session := ((Session.ofSettings { memorySize := 4 }).load "INC\nSTO 2\n:3:5").1 }

/-- The program is begun, begun anew, and left half way through its second instruction. -/
def interrupted : List Action :=
  [.press .halfStep, .operate (.run 1), .reset, .press .step]

theorem executed_as_written_of_storing :
    storing.DrivenBy interrupted ∧
      storing.trace interrupted =
        [.executed 0 (.accu .inc) 0, .retired, .executed 1 (.sto 2) 1] ∧
      (storing.after interrupted).machine.memory.read 1 = .ok (Instruction.sto 2).encode ∧
      (storing.after interrupted).machine.memory.read 2 = .ok 1 ∧
      (storing.after interrupted).machine.memory.read 3 = .ok 5 ∧
      ∀ pc i before, .executed pc i before ∈ storing.trace [.press .step] →
        pc.toNat < 2 ∧ [.accu .inc, .sto 2][pc.toNat]? = some i := by
  have hload : (Session.ofSettings { memorySize := 4 }).load "INC\nSTO 2\n:3:5" =
      (storing.session, .ok { instructions := [.accu .inc, .sto 2], data := [(3, 5)] }) := rfl
  have hapart : Program.Apart { instructions := [.accu .inc, .sto 2], data := [(3, 5)] } := by
    constructor
    · decide
    · simp
  have hidle : (storing.after [.reset, .press .step]).machine.phase = .idle := by decide +kernel
  have hdrives : storing.DrivenBy interrupted := ⟨⟨⟨⟨trivial, trivial⟩, trivial⟩, hidle⟩, trivial⟩
  have htrace : storing.trace interrupted =
      [.executed 0 (.accu .inc) 0, .retired, .executed 1 (.sto 2) 1] := by decide +kernel
  have hstored : (storing.after interrupted).machine.memory.read 2 = .ok 1 := by decide +kernel
  obtain ⟨hcode, hexecuted, huntouched⟩ := executed_as_written hload hapart hdrives
  have hearlier : [.press .step] <:+ interrupted :=
    ⟨[.press .halfStep, .operate (.run 1), .reset], rfl⟩
  refine ⟨hdrives, htrace, hcode 1 _ rfl, hstored, ?_, hexecuted _ hearlier⟩
  refine huntouched 3 ?_
  rw [htrace]
  simp [Half.stored?]

end AccumulatorMachine.Debugger
