import AccumulatorMachine.Proofs.CommandLine.Jobs

/-! # A memory size given twice

A memory size on the command line takes the place of the one in the settings file. The file is
checked by itself before that, so the size in the file still has to be one that memory can have;
which one it is makes no difference (`memory_size_override_exact`).
-/

namespace AccumulatorMachine.CommandLine
set_option autoImplicit false
open Settings

/-! ## Files that matter -/

/-- The file that the command of an invocation reads. -/
def Invocation.program? (i : Invocation) : Option String :=
  match i.command with
  | some (.run options) => some options.program
  | some (.debug program) => some program
  | some (.assemble path _) => some path
  | some (.signals _) | some .selfTest | none => none

section
variable {files files' : Files} {i : Invocation}

theorem source_congr {path : String} (h : files path = files' path) :
    source files path = source files' path := by
  rw [source, source, h]

theorem load_congr {path : String} (h : files path = files' path) (s : Settings) (trace : Bool) :
    load files s trace path = load files' s trace path := by
  rw [load, load, source_congr h]

theorem runProgram_congr {o : RunOptions} (h : files o.program = files' o.program) (s : Settings)
    (trace : Bool) : runProgram files s trace o = runProgram files' s trace o := by
  rw [runProgram, runProgram, load_congr h]

theorem debugProgram_congr {path : String} (h : files path = files' path) (s : Settings)
    (trace : Bool) : debugProgram files s trace path = debugProgram files' s trace path := by
  rw [debugProgram, debugProgram, load_congr h]

theorem assembleFile_congr {path : String} (h : files path = files' path) (format : CodeFormat) :
    assembleFile files path format = assembleFile files' path format := by
  rw [assembleFile, assembleFile, source_congr h]

/-- Besides its settings, a job depends on the file of its command alone. -/
theorem job_congr (hsettings : settings files i = settings files' i)
    (hprogram : ∀ p, i.program? = some p → files p = files' p) : i.job files = i.job files' := by
  rw [Invocation.job, Invocation.job, hsettings]
  unfold Invocation.program? at hprogram
  cases hcommand : i.command with
  | none => rfl
  | some c =>
    rw [hcommand] at hprogram
    cases c with
    | run o => simp only [runProgram_congr (hprogram o.program rfl)]
    | debug program => simp only [debugProgram_congr (hprogram program rfl)]
    | assemble path format => simp only [assembleFile_congr (hprogram path rfl)]
    | signals => rfl
    | selfTest => rfl

/-! ## Settings -/

/-- The settings with the memory size that the invocation asks for. -/
def Invocation.sized (i : Invocation) (s : Settings) : Settings :=
  { s with memorySize := i.memorySize.getD s.memorySize }

theorem settings_of_error {e : SettingsError} (h : fileSettings files i.config = .error e) :
    settings files i = fail ("Failed to load settings: " ++ e.message) := by
  rw [settings]
  simp only [h]

theorem settings_of_ok {s : Settings} (h : fileSettings files i.config = .ok s) :
    settings files i =
      match (i.sized s).validate with
      | .error e => fail e.message
      | .ok s => pure s := by
  rw [settings]
  simp only [h]
  rfl

end

/-- The files are the same in both, except that the settings file, under whichever of the paths
`named` it is read, holds `text` in the one and `text'` in the other. -/
structure Exchanged (named : String → Prop) (files files' : Files) (text text' : String) : Prop where
  settings : ∀ p, named p → files p = .ok text ∧ files' p = .ok text'
  others : ∀ p, ¬named p → files p = files' p

section
variable {named : String → Prop} {files files' : Files} {text text' : String} {s s' : Settings}
  {i : Invocation}

theorem read_of_ofJson? (h : (Json.read? text).bind ofJson? = some s) :
    Settings.read text = s.validate := by
  rw [Settings.read]
  simp only [h]

theorem fileSettings_eq {path : String} (hfile : files path = .ok text)
    (hs : (Json.read? text).bind ofJson? = some s) :
    fileSettings files (some path) = s.validate := by
  rw [fileSettings]
  simp only [hfile]
  exact read_of_ofJson? hs

theorem settings_congr (h : Exchanged named files files' text text')
    (hs : (Json.read? text).bind ofJson? = some s) (hs' : (Json.read? text').bind ofJson? = some s')
    (hcycles : s.maxCycles = s'.maxCycles) (hsize : IsMemorySize s.memorySize)
    (hsize' : IsMemorySize s'.memorySize) (hgiven : i.memorySize.isSome) :
    settings files i = settings files' i := by
  cases hconfig : i.config with
  | none =>
    rw [settings, settings, hconfig]
    rfl
  | some path =>
    by_cases hpath : named path
    · obtain ⟨hfile, hfile'⟩ := h.settings path hpath
      have hleft : fileSettings files i.config = s.validate := by
        rw [hconfig, fileSettings_eq hfile hs]
      have hright : fileSettings files' i.config = s'.validate := by
        rw [hconfig, fileSettings_eq hfile' hs']
      by_cases hzero : s.maxCycles = 0
      · rw [validate_of_maxCycles hsize hzero] at hleft
        rw [validate_of_maxCycles hsize' (hcycles ▸ hzero)] at hright
        rw [settings_of_error hleft, settings_of_error hright]
      · have hsized : i.sized s = i.sized s' := by
          obtain ⟨n, hn⟩ := Option.isSome_iff_exists.1 hgiven
          simp [Invocation.sized, hn, hcycles]
        rw [validate_of_valid hsize hzero] at hleft
        rw [validate_of_valid hsize' (hcycles ▸ hzero)] at hright
        rw [settings_of_ok hleft, settings_of_ok hright, hsized]
    · rw [settings, settings, hconfig, fileSettings, fileSettings, h.others path hpath]

theorem job_of_memorySize {path : String} (hconfig : i.config = some path)
    (hfile : files path = .ok text) (hs : (Json.read? text).bind ofJson? = some s)
    (hsize : ¬IsMemorySize s.memorySize) :
    (i.job files).report = .failed ""
      ("Failed to load settings: " ++ (SettingsError.memorySize s.memorySize).message) := by
  have hsettings : fileSettings files i.config = .error (.memorySize s.memorySize) := by
    rw [hconfig, fileSettings_eq hfile hs, validate_of_memorySize hsize]
  rw [Invocation.job, settings_of_error hsettings]
  exact (leaves_fail _).stop.report

/-! ## Command lines -/

theorem report_of_ok {arguments : List String} (h : Invocation.ofArguments arguments = .ok i)
    (files : Files) : report files arguments = .ok (i.job files).report := by
  rw [report, h]
  rfl

theorem report_of_stop {arguments : List String} {stop : Stop}
    (h : Invocation.ofArguments arguments = .error stop) (files : Files) :
    report files arguments = .error stop := by
  rw [report, h]
  rfl

/-- **A memory size on the command line overrides that of the settings file.** If two settings files
differ in their memory sizes alone, and both are sizes that memory can have, then a command line
that gives a size, and does not take the settings file for its program, has the same report with
either. If one of them is no such size, the command fails before it begins, and says so. -/
theorem memory_size_override_exact (h : Exchanged named files files' text text')
    (hs : (Json.read? text).bind ofJson? = some s) (hs' : (Json.read? text').bind ofJson? = some s')
    (hcycles : s.maxCycles = s'.maxCycles) {arguments : List String}
    (hgiven : ∀ i, Invocation.ofArguments arguments = .ok i → i.memorySize.isSome)
    (hprogram : ∀ i path, Invocation.ofArguments arguments = .ok i → i.program? = some path →
      ¬named path) :
    (IsMemorySize s.memorySize → IsMemorySize s'.memorySize →
      report files arguments = report files' arguments) ∧
    ∀ i path, Invocation.ofArguments arguments = .ok i → i.config = some path → named path →
      (¬IsMemorySize s.memorySize → report files arguments = .ok (.failed ""
        ("Failed to load settings: " ++ (SettingsError.memorySize s.memorySize).message))) ∧
      (¬IsMemorySize s'.memorySize → report files' arguments = .ok (.failed ""
        ("Failed to load settings: " ++ (SettingsError.memorySize s'.memorySize).message))) := by
  constructor
  · intro hsize hsize'
    cases hi : Invocation.ofArguments arguments with
    | error stop => rw [report_of_stop hi, report_of_stop hi]
    | ok i =>
      have hsettings := settings_congr h hs hs' hcycles hsize hsize' (hgiven i hi)
      have hjob := job_congr hsettings fun path hpath => h.others path (hprogram i path hi hpath)
      rw [report_of_ok hi, report_of_ok hi, hjob]
  · intro i path hi hconfig hpath
    obtain ⟨hfile, hfile'⟩ := h.settings path hpath
    rw [report_of_ok hi, report_of_ok hi]
    refine ⟨fun hsize => ?_, fun hsize' => ?_⟩
    · rw [job_of_memorySize hconfig hfile hs hsize]
    · rw [job_of_memorySize hconfig hfile' hs' hsize']

end

/-- The text of a settings file with this memory size. -/
def sizeText (size : String) : String := "\x7b\"memory_size\":" ++ size ++ "\x7d"

/-- One path leads to a settings file, every other one to a program of one instruction. -/
def configured (size : String) : Files := fun path =>
  if path = "settings" then .ok (sizeText size) else .ok "INC"

theorem exchanged_configured (size size' : String) :
    Exchanged (· = "settings") (configured size) (configured size') (sizeText size)
      (sizeText size') where
  settings p hp := by
    rw [configured, configured, if_pos hp, if_pos hp]
    exact ⟨rfl, rfl⟩
  others p hp := by rw [configured, configured, if_neg hp, if_neg hp]

def overriding : List String := ["-c", "settings", "--memory-size", "2", "run", "increment"]

def overridingRun : Invocation where
  config := some "settings"
  memorySize := some 2
  command := some (.run ⟨"increment", none, false, none⟩)

theorem ofArguments_overriding : Invocation.ofArguments overriding = .ok overridingRun := rfl

theorem memory_size_override_exact_of_overriding :
    (Json.read? (sizeText "1")).bind ofJson? = some { memorySize := 1 } ∧
      (Json.read? (sizeText "9000")).bind ofJson? = some { memorySize := 9000 } ∧
      report (configured "1") overriding = report (configured "4096") overriding ∧
      report (configured "9000") overriding = .ok (.failed "" ("Failed to load settings: " ++
        "invalid setting: memory_size must be between 1 and 4096, got 9000")) := by
  have hone : (Json.read? (sizeText "1")).bind ofJson? = some { memorySize := 1 } := by
    decide +kernel
  have hfull : (Json.read? (sizeText "4096")).bind ofJson? = some { memorySize := 4096 } := by
    decide +kernel
  have hlarge : (Json.read? (sizeText "9000")).bind ofJson? = some { memorySize := 9000 } := by
    decide +kernel
  have hinvocation {i : Invocation} (hi : Invocation.ofArguments overriding = .ok i) :
      i = overridingRun := Except.ok.inj (hi.symm.trans ofArguments_overriding)
  have hgiven (i : Invocation) (hi : Invocation.ofArguments overriding = .ok i) :
      i.memorySize.isSome := by
    rw [hinvocation hi]
    rfl
  have hprogram (i : Invocation) (path : String)
      (hi : Invocation.ofArguments overriding = .ok i) (hpath : i.program? = some path) :
      ¬path = "settings" := by
    rw [hinvocation hi] at hpath
    rw [← Option.some.inj hpath]
    decide
  obtain ⟨hsame, -⟩ := memory_size_override_exact (exchanged_configured "1" "4096") hone hfull rfl
    hgiven hprogram
  obtain ⟨-, hfails⟩ := memory_size_override_exact (exchanged_configured "9000" "4096") hlarge hfull
    rfl hgiven hprogram
  refine ⟨hone, hlarge, hsame (by decide) (by decide), ?_⟩
  exact (hfails overridingRun "settings" rfl rfl rfl).1 (by decide)

/-- A command line that lists the settings file as a program. -/
def selfListing : List String := ["-c", "settings", "--memory-size", "2", "asm", "settings"]

/-- A size that memory cannot have is refused, although it is overridden. And a settings file that
is also the program shows its size in the report. -/
theorem overridden_size_shows :
    (Json.read? (sizeText "0")).bind ofJson? = some { memorySize := 0 } ∧
      (Json.read? (sizeText "1")).bind ofJson? = some { memorySize := 1 } ∧
      (Json.read? (sizeText "2")).bind ofJson? = some { memorySize := 2 } ∧
      overridingRun.memorySize = some 2 ∧
      report (configured "0") overriding ≠ report (configured "1") overriding ∧
      report (configured "1") selfListing ≠ report (configured "2") selfListing := by
  have hzero : (report (configured "0") overriding).toOption.map Report.exit = some 1 := by
    decide +kernel
  have hone : (report (configured "1") overriding).toOption.map Report.exit = some 0 := by
    decide +kernel
  have hlisted : (report (configured "1") selfListing).toOption.map Report.output =
      some ⟨"", "❌ syntax error on line 1: " ++ sizeText "1" ++ "\n"⟩ := by
    decide +kernel
  have hlisted' : (report (configured "2") selfListing).toOption.map Report.output =
      some ⟨"", "❌ syntax error on line 1: " ++ sizeText "2" ++ "\n"⟩ := by
    decide +kernel
  refine ⟨by decide +kernel, by decide +kernel, by decide +kernel, rfl, fun h => ?_, fun h => ?_⟩
  · rw [h, hone] at hzero
    exact absurd hzero (by decide)
  · rw [h, hlisted'] at hlisted
    exact absurd hlisted (by decide)

end AccumulatorMachine.CommandLine
