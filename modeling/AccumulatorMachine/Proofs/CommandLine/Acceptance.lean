import AccumulatorMachine.Proofs.Assembly.Room
import AccumulatorMachine.Proofs.CommandLine.Jobs

/-! # Programs that commands accept

The command that lists a program assembles it for a memory of full size, and the command that runs
it for the memory that the settings ask for. So with a full memory the two accept the same files,
with the same complaints about the others; and a smaller memory adds those programs that do not fit
(`acceptance_exact`).
-/

namespace AccumulatorMachine
set_option autoImplicit false
open Assembly

/-! ## Loads -/

namespace Session
variable {s : Session} {text : String}

theorem load_of_assemble {p : Program}
    (h : Program.assemble text s.settings.memorySize.toNat = .ok p) :
    ∃ loaded, s.load text = (loaded, .ok p) := by
  refine ⟨_, load_eq_ok_iff.2 ⟨_, Machine.load_eq_ok_iff.2 ⟨?_, rfl⟩, rfl⟩⟩
  rw [← h]
  exact congrArg (Program.assemble text) (Memory.size_zeros _)

theorem load_of_assemble_error {e : AssemblyError}
    (h : Program.assemble text s.settings.memorySize.toNat = .error e) :
    s.load text = (s.emptied, .error e) := by
  have hsize : s.emptied.machine.memory.size = s.settings.memorySize.toNat := Memory.size_zeros _
  have hload : s.emptied.machine.load text = .error e := by
    rw [Machine.load, InPlace.outcome, InPlace.load_eq, hsize, h]
  rw [load_eq, hload]

end Session

namespace CommandLine
open Text

/-! ## Jobs that only add -/

section
variable {α β : Type} {job : Job α} {f : α → Job β}

/-- The job ends in some way, with something added to what has been printed. -/
def Adds (job : Job α) : Prop := ∃ r said, Leaves job r said

theorem Leaves.adds {r : Except Unit α} {said : Output} (h : Leaves job r said) : Adds job :=
  ⟨r, said, h⟩

theorem Yields.adds {a : α} (h : Yields job a) : Adds job := ⟨.ok a, h⟩

theorem Adds.bind (h : Adds job) (hf : ∀ a, Adds (f a)) : Adds (job >>= f) := by
  obtain ⟨r, said, hr⟩ := h
  cases r with
  | error e => exact hr.stop.adds
  | ok a =>
    obtain ⟨r', said', hr'⟩ := hf a
    exact (hr.bind hr').adds

theorem Adds.bind_ite {b : Bool} {job' : Job α} (h : Adds (if b then job else job'))
    (hf : ∀ a, Adds (f a)) : Adds (if b then job >>= f else job' >>= f) := by
  cases b with
  | true => exact Adds.bind h hf
  | false => exact Adds.bind h hf

end

theorem adds_sayRows (m : Memory) (range : String) : Adds (sayRows m range) := by
  unfold sayRows
  split
  · exact (leaves_fail _).adds
  · split
    · exact (leaves_fail _).adds
    · exact (leaves_say _).adds.bind fun _ => (leaves_say _).adds.bind fun _ =>
        (leaves_forM_say _ _).adds

theorem adds_conclude (m : Machine) (budget : UInt64) (dump : Option String) :
    Adds (conclude m budget dump) := by
  obtain ⟨notice, hnotice, -⟩ := leaves_noticeLimit m budget
  cases dump with
  | none => exact (leaves_pure ()).adds.bind fun _ => hnotice.adds
  | some range => exact (adds_sayRows m.memory range).bind fun _ => hnotice.adds

/-- What a run command does with a loaded program. -/
def runLoaded (s : Settings) (trace : Bool) (o : RunOptions) (session : Session) : Job Unit := do
  let budget := o.maxCycles.getD s.maxCycles
  if trace then log (session.machine.runEvents budget.toNat)
  let (session, result) := session.run budget.toNat
  let m := session.machine
  match result with
  | .error e => fail ("CPU error at PC=" ++ toString m.pc.toNat ++ ": " ++ e.message)
  | .ok count =>
    if o.json then say (stateText m) else sayResult count m
    conclude m budget o.dump

theorem adds_runLoaded (s : Settings) (trace : Bool) (o : RunOptions) (session : Session) :
    Adds (runLoaded s trace o session) := by
  rw [runLoaded]
  obtain ⟨after, result⟩ := session.run (o.maxCycles.getD s.maxCycles).toNat
  refine (yields_log_if trace _).adds.bind_ite fun _ => ?_
  cases result with
  | error e => exact (leaves_fail _).adds
  | ok count =>
    exact (yields_result o.json count _).adds.bind_ite fun _ => adds_conclude _ _ o.dump

/-! ## Loading -/

section
variable {files : Files} {s : Settings} {path reason : String}

/-- Why the file at the path is no program for a memory of `size` cells, if it is none. -/
def refusal? (files : Files) (size : Nat) (path : String) : Option String :=
  match files path with
  | .error e => some ("Failed to read file: " ++ e.reason)
  | .ok text =>
    match Program.assemble text size with
    | .error e => some e.message
    | .ok _ => none

theorem refusal?_eq_none_iff {size : Nat} : refusal? files size path = none ↔
    ∃ text p, files path = .ok text ∧ Program.assemble text size = .ok p := by
  unfold refusal?
  cases files path with
  | error e => simp
  | ok text => cases h : Program.assemble text size <;> simp [h]

theorem refusal?_eq_some_iff {size : Nat} : refusal? files size path = some reason ↔
    (∃ e, files path = .error e ∧ reason = "Failed to read file: " ++ e.reason) ∨
      ∃ text e, files path = .ok text ∧ Program.assemble text size = .error e ∧
        reason = e.message := by
  unfold refusal?
  cases files path with
  | error e => simp [eq_comm]
  | ok text => cases h : Program.assemble text size <;> simp [h, eq_comm]

/-- A smaller memory has the same complaint, or there is no room in it. -/
theorem refusal?_smaller {size : Nat} (hle : size ≤ fullSize)
    (h : refusal? files size path = some reason) :
    refusal? files fullSize path = some reason ∨
      ∃ e, OutOfRoom size fullSize e ∧ reason = e.message := by
  obtain hfile | ⟨text, e, hfile, hp, rfl⟩ := refusal?_eq_some_iff.1 h
  · exact .inl (refusal?_eq_some_iff.2 (.inl hfile))
  · obtain heq | ⟨e', he', heq⟩ := Program.assemble_smaller hle text
    · rw [heq] at hp
      exact .inl (refusal?_eq_some_iff.2 (.inr ⟨text, e, hfile, hp, rfl⟩))
    · rw [heq, Except.error.injEq] at hp
      exact .inr ⟨e, hp ▸ he', rfl⟩

/-- A smaller memory refuses those programs besides that do not fit. -/
theorem exists_refusal_iff {size : Nat} (hle : size ≤ fullSize) :
    (∃ reason, refusal? files size path = some reason) ↔
      (refusal? files fullSize path).isSome ∨ ∃ text p, files path = .ok text ∧
        Program.assemble text fullSize = .ok p ∧ ¬p.Fits size := by
  rw [← Option.isSome_iff_exists, Option.isSome_iff_ne_none, Option.isSome_iff_ne_none]
  constructor
  · intro hrefused
    by_cases hfull : refusal? files fullSize path = none
    · obtain ⟨text, p, hfile, hp⟩ := refusal?_eq_none_iff.1 hfull
      refine .inr ⟨text, p, hfile, hp, fun hfits => hrefused ?_⟩
      have hsmall := (Program.assemble_eq_ok_iff_fits hle).2 ⟨hp, hfits⟩
      exact refusal?_eq_none_iff.2 ⟨text, p, hfile, hsmall⟩
    · exact .inl hfull
  · intro h haccepted
    obtain ⟨text, p, hfile, hsmall⟩ := refusal?_eq_none_iff.1 haccepted
    obtain ⟨hp, hfits⟩ := (Program.assemble_eq_ok_iff_fits hle).1 hsmall
    obtain hfull | ⟨text', p', hfile', hp', hno⟩ := h
    · exact hfull (refusal?_eq_none_iff.2 ⟨text, p, hfile, hp⟩)
    · rw [hfile, Except.ok.injEq] at hfile'
      rw [← hfile', hp, Except.ok.injEq] at hp'
      exact hno (hp' ▸ hfits)

theorem leaves_load_of_refusal (h : refusal? files s.memorySize.toNat path = some reason)
    (trace : Bool) : Leaves (load files s trace path) (.error ()) ⟨"", "❌ " ++ reason ++ "\n"⟩ := by
  rw [load, source]
  obtain ⟨e, hfile, rfl⟩ | ⟨text, e, hfile, hp, rfl⟩ := refusal?_eq_some_iff.1 h
  · simp only [hfile]
    exact (leaves_fail _).stop
  · have hload := Session.load_of_assemble_error (s := Session.ofSettings s) hp
    have hevents : (Session.ofSettings s).loadEvents text = [] := by
      rw [Session.loadEvents, hload]
    simp only [hfile, pure_bind, hload, hevents]
    cases trace with
    | false => exact leaves_fail e.message
    | true =>
      have hlog : Leaves (log []) (.ok ()) {} := leaves_log []
      have hfail := hlog.next (leaves_fail (α := Session) e.message)
      rwa [Output.empty_append] at hfail

/-- The line that says that a program has been loaded. -/
def parsedLine (p : Program) : String :=
  "📝 Parsed " ++ toString p.instructions.length ++ " instructions, " ++ toString p.data.length ++
    " data words"

theorem leaves_load {text : String} {p : Program} (hfile : files path = .ok text)
    (hp : Program.assemble text s.memorySize.toNat = .ok p) (trace : Bool) :
    ∃ loaded err, Leaves (load files s trace path) (.ok loaded) ⟨parsedLine p ++ "\n", err⟩ := by
  obtain ⟨loaded, hload⟩ := Session.load_of_assemble (s := Session.ofSettings s) hp
  have hsay := (leaves_say (parsedLine p)).next (leaves_pure loaded)
  rw [Output.append_empty] at hsay
  rw [load, source]
  simp only [hfile, pure_bind, hload]
  cases trace with
  | false => exact ⟨loaded, "", hsay⟩
  | true =>
    have hlog := (leaves_log ((Session.ofSettings s).loadEvents text)).next hsay
    refine ⟨loaded, String.join (((Session.ofSettings s).loadEvents text).map Event.logLine), ?_⟩
    have hsaid : (⟨"", String.join (((Session.ofSettings s).loadEvents text).map Event.logLine)⟩ :
        Output) ++ ⟨parsedLine p ++ "\n", ""⟩ = ⟨parsedLine p ++ "\n",
          String.join (((Session.ofSettings s).loadEvents text).map Event.logLine)⟩ := by
      ext1 <;> simp
    rw [hsaid] at hlog
    exact hlog

end

/-! ## Reports -/

/-- The invocation with another command. -/
def Invocation.doing (i : Invocation) (c : Command) : Invocation := { i with command := some c }

/-- The line with which a run begins. -/
def runningLine (path : String) : String := "🔧 Running: " ++ path ++ "\n"

section
variable {files : Files} {i : Invocation} {s : Settings}

theorem leaves_assembleFile_of_refusal {path reason : String}
    (h : refusal? files fullSize path = some reason) (format : CodeFormat) :
    Leaves (assembleFile files path format) (.error ()) ⟨"", "❌ " ++ reason ++ "\n"⟩ := by
  rw [assembleFile, source]
  obtain ⟨e, hfile, rfl⟩ | ⟨text, e, hfile, hp, rfl⟩ := refusal?_eq_some_iff.1 h
  · simp only [hfile]
    exact (leaves_fail _).stop
  · simp only [hfile, pure_bind, hp]
    exact leaves_fail e.message

theorem yields_assembleFile {path : String} (h : refusal? files fullSize path = none)
    (format : CodeFormat) : Yields (assembleFile files path format) () := by
  obtain ⟨text, p, hfile, hp⟩ := refusal?_eq_none_iff.1 h
  rw [assembleFile, source]
  simp only [hfile, pure_bind, hp]
  exact (leaves_put _).yields.bind (leaves_forM_say _ p.data).yields

theorem exists_leaves_runProgram {trace : Bool} {o : RunOptions} {loaded : Session} {said : Output}
    (h : Leaves (load files s trace o.program) (.ok loaded) said) :
    ∃ r rest, Leaves (runProgram files s trace o) r (⟨runningLine o.program, ""⟩ ++ (said ++ rest)) := by
  obtain ⟨r, rest, hrest⟩ := adds_runLoaded s trace o loaded
  exact ⟨r, rest, (leaves_say _).next (h.bind hrest)⟩

section
variable (hs : Leaves (settings files i) (.ok s) {})
include hs

theorem report_assemble_of_refusal {path reason : String}
    (h : refusal? files fullSize path = some reason) (format : CodeFormat) :
    ((i.doing (.assemble path format)).job files).report = .failed "" reason := by
  have hjob := (hs.next (leaves_assembleFile_of_refusal h format)).report
  rw [Output.empty_append] at hjob
  exact hjob

theorem exit_assemble {path : String} (h : refusal? files fullSize path = none)
    (format : CodeFormat) : ((i.doing (.assemble path format)).job files).report.exit = 0 := by
  obtain ⟨said, hsaid⟩ := yields_assembleFile h format
  exact congrArg Report.exit (hs.next hsaid).report

theorem report_run_of_refusal {o : RunOptions} {reason : String}
    (h : refusal? files s.memorySize.toNat o.program = some reason) :
    ((i.doing (.run o)).job files).report = .failed (runningLine o.program) reason := by
  have hload := leaves_load_of_refusal (s := s) h i.trace
  have hrun : Leaves (runProgram files s i.trace o) (.error ())
      (⟨runningLine o.program, ""⟩ ++ ⟨"", "❌ " ++ reason ++ "\n"⟩) :=
    (leaves_say _).next hload.stop
  have hjob := (hs.bind (f := fun s => runProgram files s i.trace o) hrun).report
  have hsaid : (⟨runningLine o.program, ""⟩ : Output) ++ ⟨"", "❌ " ++ reason ++ "\n"⟩ =
      ⟨runningLine o.program, "❌ " ++ reason ++ "\n"⟩ := by
    ext1 <;> simp
  rw [Output.empty_append, hsaid] at hjob
  exact hjob

theorem out_run {o : RunOptions} (h : refusal? files s.memorySize.toNat o.program = none) :
    ∃ p rest, ((i.doing (.run o)).job files).report.output.out =
      runningLine o.program ++ (parsedLine p ++ "\n" ++ rest) := by
  obtain ⟨text, p, hfile, hp⟩ := refusal?_eq_none_iff.1 h
  obtain ⟨loaded, err, hload⟩ := leaves_load hfile hp i.trace
  obtain ⟨r, rest, hrun⟩ := exists_leaves_runProgram hload
  have hjob := (hs.bind (f := fun s => runProgram files s i.trace o) hrun).report
  rw [Output.empty_append] at hjob
  exact ⟨p, rest.out, congrArg (fun r => r.output.out) hjob⟩

end

/-- Settings that are accepted are for a memory that addresses reach. -/
theorem memorySize_le (hs : Leaves (settings files i) (.ok s) {}) :
    s.memorySize.toNat ≤ fullSize := by
  have hrun := hs {}
  unfold settings at hrun
  split at hrun
  · cases hrun
  · next given _ =>
    split at hrun
    · cases hrun
    · next s' hvalid =>
      obtain ⟨hsized, hsize, -⟩ := Settings.validate_eq_ok_iff.1 hvalid
      obtain rfl : s' = s := (EStateM.Result.ok.inj hrun).1
      rw [hsized]
      exact hsize.2

theorem Report.failed_inj {out reason reason' : String}
    (h : Report.failed out reason = .failed out reason') : reason = reason' := by
  simpa [Report.failed] using h

section
variable (hs : Leaves (settings files i) (.ok s) {})
include hs

theorem assemble_failed_iff (path : String) (format : CodeFormat) (reason : String) :
    ((i.doing (.assemble path format)).job files).report = .failed "" reason ↔
      refusal? files fullSize path = some reason := by
  refine ⟨fun h => ?_, fun h => report_assemble_of_refusal hs h format⟩
  cases hr : refusal? files fullSize path with
  | none =>
    have hexit := exit_assemble hs hr format
    rw [h] at hexit
    cases hexit
  | some reason' =>
    rw [report_assemble_of_refusal hs hr format] at h
    rw [Report.failed_inj h]

theorem exit_assemble_iff (path : String) (format : CodeFormat) :
    ((i.doing (.assemble path format)).job files).report.exit ≠ 0 ↔
      (refusal? files fullSize path).isSome := by
  cases hr : refusal? files fullSize path with
  | none => simp [exit_assemble hs hr format]
  | some reason => simp [report_assemble_of_refusal hs hr format, Report.failed]

theorem run_failed_iff (o : RunOptions) (reason : String) :
    ((i.doing (.run o)).job files).report = .failed (runningLine o.program) reason ↔
      refusal? files s.memorySize.toNat o.program = some reason := by
  refine ⟨fun h => ?_, report_run_of_refusal hs⟩
  cases hr : refusal? files s.memorySize.toNat o.program with
  | none =>
    obtain ⟨p, rest, hout⟩ := out_run hs hr
    rw [h] at hout
    -- the line that a loaded program brings is still missing
    have hlength : (runningLine o.program).length =
        (runningLine o.program ++ (parsedLine p ++ "\n" ++ rest)).length :=
      congrArg String.length hout
    have hnewline : "\n".length = 1 := rfl
    rw [String.length_append, String.length_append, String.length_append] at hlength
    omega
  | some reason' =>
    rw [report_run_of_refusal hs hr] at h
    rw [Report.failed_inj h]

/-- **Listing and running accept the same programs in a full memory.** There the one command refuses
a file just if the other fails to load it, and for the same reason. In any memory, a run fails to
load what a listing refuses and also the programs that do not fit; and a reason that the listing
does not have is that there is no room. -/
theorem acceptance_exact (format : CodeFormat) (o : RunOptions) :
    let listing := ((i.doing (.assemble o.program format)).job files).report
    let run := ((i.doing (.run o)).job files).report
    let size := s.memorySize.toNat
    (listing.exit ≠ 0 ↔ ∃ reason, listing = .failed "" reason) ∧
    (size = fullSize →
      (listing.exit ≠ 0 ↔ ∃ reason, run = .failed (runningLine o.program) reason) ∧
      ∀ reason, listing = .failed "" reason ↔ run = .failed (runningLine o.program) reason) ∧
    ((∃ reason, run = .failed (runningLine o.program) reason) ↔ listing.exit ≠ 0 ∨
      ∃ text p, files o.program = .ok text ∧ Program.assemble text fullSize = .ok p ∧
        ¬p.Fits size) ∧
    ∀ reason, run = .failed (runningLine o.program) reason →
      listing = .failed "" reason ∨ ∃ e, OutOfRoom size fullSize e ∧ reason = e.message := by
  intro listing run size
  have hle : size ≤ fullSize := memorySize_le hs
  have hrun := run_failed_iff hs o
  have hlisting := assemble_failed_iff hs o.program format
  have hexit := exit_assemble_iff hs o.program format
  simp only [listing, run, hrun, hlisting, hexit]
  refine ⟨Option.isSome_iff_exists, fun hfull => ?_, exists_refusal_iff hle,
    fun reason => refusal?_smaller hle⟩
  rw [show s.memorySize.toNat = fullSize from hfull]
  exact ⟨Option.isSome_iff_exists, fun reason => Iff.rfl⟩

end

end

/-- Every path leads to a program of two instructions. -/
def twoIncrements : Files := fun _ => .ok "INC\nINC"

/-- The global options of a command line that asks for a memory of this size. -/
def asking (size : UInt64) : Invocation := { memorySize := some size }

def runIncrements : RunOptions := ⟨"increments", none, false, none⟩

theorem leaves_settings_asking (size : UInt64) (h : Settings.IsMemorySize size) :
    Leaves (settings twoIncrements (asking size)) (.ok { memorySize := size }) {} := by
  have hvalid : ({ memorySize := size } : Settings).validate = .ok { memorySize := size } :=
    Settings.validate_of_valid h (show (100000 : UInt64) ≠ 0 by decide)
  rw [settings]
  simp only [asking, fileSettings, Option.getD_some, hvalid]
  exact leaves_pure _

theorem acceptance_exact_of_two_increments :
    Leaves (settings twoIncrements (asking 1)) (.ok { memorySize := 1 }) {} ∧
      Leaves (settings twoIncrements (asking 4096)) (.ok { memorySize := 4096 }) {} ∧
      (∃ reason, (((asking 1).doing (.run runIncrements)).job twoIncrements).report =
        .failed (runningLine "increments") reason) ∧
      ∀ reason, (((asking 4096).doing (.run runIncrements)).job twoIncrements).report ≠
        .failed (runningLine "increments") reason := by
  have hone := leaves_settings_asking 1 (by decide)
  have hfull := leaves_settings_asking 4096 (by decide)
  obtain ⟨-, -, hsmall, -⟩ := acceptance_exact hone .hex runIncrements
  obtain ⟨-, hsame, -, -⟩ := acceptance_exact hfull .hex runIncrements
  have hp : Program.assemble "INC\nINC" fullSize = .ok { instructions := [.accu .inc, .accu .inc] } :=
    rfl
  refine ⟨hone, hfull, hsmall.2 (.inr ⟨_, _, rfl, hp, fun hfits => ?_⟩), fun reason hreason => ?_⟩
  · exact absurd hfits.instructions (by decide)
  · have hexit := (hsame rfl).1.2 ⟨reason, hreason⟩
    exact hexit (by decide +kernel)

/-- The memory that is asked for makes no difference to a listing. -/
theorem listing_beyond_memory :
    Leaves (settings twoIncrements (asking 1)) (.ok { memorySize := 1 }) {} ∧
      (((asking 1).doing (.assemble "increments" .hex)).job twoIncrements).report.exit = 0 ∧
      (((asking 1).doing (.run runIncrements)).job twoIncrements).report =
        .failed (runningLine "increments") "program size 2 exceeds available space 1" :=
  ⟨leaves_settings_asking 1 (by decide), by decide +kernel, by decide +kernel⟩

end CommandLine

end AccumulatorMachine
