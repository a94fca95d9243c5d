import AccumulatorMachine.CommandLine.Commands
import AccumulatorMachine.Proofs.Assembly.RoundTrip
import AccumulatorMachine.Proofs.Session.Reached
import AccumulatorMachine.Proofs.Settings

/-! # What jobs leave

A job only adds to what has been printed, so it is described by its own output and by how it ends
(`Leaves`), whatever came before. Descriptions are put together along the steps of a job, and a
failure cuts off what follows it. A `CompleteRun` is an invocation whose program has run to its end
or out of its budget, and `CompleteRun.leaves` says that only the end of its output depends on the
rows that are asked for.
-/

namespace AccumulatorMachine.CommandLine
set_option autoImplicit false
open Text

/-! ## Descriptions of jobs -/

instance : Append Output := ⟨fun a b => ⟨a.out ++ b.out, a.err ++ b.err⟩⟩

attribute [ext] Output

@[simp] theorem Output.out_append (a b : Output) : (a ++ b).out = a.out ++ b.out := rfl

@[simp] theorem Output.err_append (a b : Output) : (a ++ b).err = a.err ++ b.err := rfl

theorem Output.append_assoc (a b c : Output) : a ++ b ++ c = a ++ (b ++ c) := by
  ext1 <;> simp [String.append_assoc]

theorem Output.append_empty (a : Output) : a ++ ({} : Output) = a := by
  ext1 <;> simp

theorem Output.empty_append (a : Output) : ({} : Output) ++ a = a := by
  ext1 <;> simp

section
variable {α β : Type} {job : Job α} {f : α → Job β} {a : α} {r : Except Unit β} {o o' : Output}

/-- The job prints `said` after what has been printed before, and ends with `result`. -/
def Leaves (job : Job α) (result : Except Unit α) (said : Output) : Prop :=
  ∀ before, EStateM.run job before =
    match result with
    | .ok a => .ok a (before ++ said)
    | .error e => .error e (before ++ said)

theorem Leaves.bind (h : Leaves job (.ok a) o) (h' : Leaves (f a) r o') :
    Leaves (job >>= f) r (o ++ o') := by
  intro before
  rw [EStateM.run_bind, h before, ← Output.append_assoc]
  exact h' (before ++ o)

theorem Leaves.next {job' : Job β} (h : Leaves job (.ok a) o) (h' : Leaves job' r o') :
    Leaves (job >>= fun _ => job') r (o ++ o') := h.bind h'

theorem Leaves.stop {e : Unit} (h : Leaves job (.error e) o) : Leaves (job >>= f) (.error e) o := by
  intro before
  rw [EStateM.run_bind, h before]

theorem Leaves.bind_ite {b : Bool} {job' : Job α} (h : Leaves (if b then job else job') (.ok a) o)
    (h' : Leaves (f a) r o') : Leaves (if b then job >>= f else job' >>= f) r (o ++ o') := by
  cases b with
  | true => exact Leaves.bind h h'
  | false => exact Leaves.bind h h'

theorem leaves_pure (a : α) : Leaves (pure a) (.ok a) {} := by
  intro before
  rw [Output.append_empty]
  rfl

end

theorem leaves_put (text : String) : Leaves (put text) (.ok ()) ⟨text, ""⟩ := by
  intro before
  show EStateM.Result.ok () (Output.mk (before.out ++ text) before.err) =
    .ok () ⟨before.out ++ text, before.err ++ ""⟩
  rw [String.append_empty]

theorem leaves_say (line : String) : Leaves (say line) (.ok ()) ⟨line ++ "\n", ""⟩ :=
  leaves_put (line ++ "\n")

theorem leaves_warn (line : String) : Leaves (warn line) (.ok ()) ⟨"", line ++ "\n"⟩ := by
  intro before
  show EStateM.Result.ok () (Output.mk before.out (before.err ++ line ++ "\n")) =
    .ok () ⟨before.out ++ "", before.err ++ (line ++ "\n")⟩
  rw [String.append_empty, String.append_assoc]

theorem leaves_log (events : List Event) :
    Leaves (log events) (.ok ()) ⟨"", String.join (events.map Event.logLine)⟩ := by
  intro before
  show EStateM.Result.ok () (Output.mk before.out _) = .ok () ⟨before.out ++ "", _⟩
  rw [String.append_empty]

theorem leaves_fail {α : Type} (reason : String) :
    Leaves (α := α) (fail reason) (.error ()) ⟨"", "❌ " ++ reason ++ "\n"⟩ := by
  have hthrow : Leaves (α := α) (throw ()) (.error ()) {} := by
    intro before
    rw [Output.append_empty]
    rfl
  have h := (leaves_warn ("❌ " ++ reason)).next hthrow
  rwa [Output.append_empty] at h

theorem leaves_forM_say {α : Type} (line : α → String) (as : List α) :
    Leaves (as.forM fun a => say (line a)) (.ok ()) ⟨unlines (as.map line), ""⟩ := by
  induction as with
  | nil => exact leaves_pure ()
  | cons a as ih =>
    rw [List.map_cons, unlines_cons]
    exact (leaves_say (line a)).next ih

theorem Leaves.report {job : Job Unit} {r : Except Unit Unit} {o : Output} (h : Leaves job r o) :
    job.report = ⟨if r.isOk then 0 else 1, o⟩ := by
  have hrun := h {}
  rw [Output.empty_append] at hrun
  rw [Job.report, hrun]
  cases r <;> rfl

/-- The report of a job that has printed `out` and then failed for this reason. -/
def Report.failed (out reason : String) : Report := ⟨1, ⟨out, "❌ " ++ reason ++ "\n"⟩⟩

/-! ## Jobs that succeed -/

/-- The job succeeds with `a`. -/
def Yields {α : Type} (job : Job α) (a : α) : Prop := ∃ said, Leaves job (.ok a) said

section
variable {α β : Type} {job : Job α} {f : α → Job β} {a : α} {b : β}

theorem Leaves.yields {o : Output} (h : Leaves job (.ok a) o) : Yields job a := ⟨o, h⟩

theorem Yields.bind (h : Yields job a) (h' : Yields (f a) b) : Yields (job >>= f) b := by
  obtain ⟨o, ho⟩ := h
  obtain ⟨o', ho'⟩ := h'
  exact ⟨o ++ o', ho.bind ho'⟩

end

theorem yields_log_if (trace : Bool) (events : List Event) :
    Yields (if trace then log events else pure ()) () := by
  cases trace with
  | true => exact (leaves_log events).yields
  | false => exact (leaves_pure ()).yields

theorem yields_sayResult (count : Nat) (m : Machine) : Yields (sayResult count m) () :=
  (leaves_say _).yields.bind <| (leaves_say _).yields.bind <| (leaves_say _).yields.bind <|
    (leaves_say _).yields.bind <| (leaves_say _).yields.bind <| (leaves_say _).yields.bind
      (leaves_say _).yields

theorem yields_result (json : Bool) (count : Nat) (m : Machine) :
    Yields (if json then say (stateText m) else sayResult count m) () := by
  cases json with
  | true => exact (leaves_say _).yields
  | false => exact yields_sayResult count m

/-! ## Running -/

section
variable {files : Files} {s : Settings} {o : RunOptions} {text : String}
  {loaded after : Session} {p : Program} {count : Nat}

theorem yields_load (hsource : files o.program = .ok text)
    (hload : (Session.ofSettings s).load text = (loaded, .ok p)) (trace : Bool) :
    Yields (load files s trace o.program) loaded := by
  have hread : Yields (source files o.program) text := by
    rw [source, hsource]
    exact (leaves_pure text).yields
  rw [load]
  refine hread.bind ?_
  have hsay := (leaves_say ("📝 Parsed " ++ toString p.instructions.length ++ " instructions, " ++
    toString p.data.length ++ " data words")).next (leaves_pure loaded)
  simp only [hload]
  cases trace with
  | true => exact (leaves_log _).yields.bind hsay.yields
  | false => exact hsay.yields

/-- The last step of a run command. -/
def noticeLimit (m : Machine) (budget : UInt64) : Job Unit := do
  if !m.isDone then
    warn ""
    warn ("⚠️  Reached max cycles limit (" ++ toString budget.toNat ++
      "). Use --max-cycles to increase.")

/-- What a run command does after it has shown the result. -/
def conclude (m : Machine) (budget : UInt64) (dump : Option String) : Job Unit := do
  dump.forM fun range => sayRows m.memory range
  noticeLimit m budget

theorem leaves_noticeLimit (m : Machine) (budget : UInt64) :
    ∃ notice, Leaves (noticeLimit m budget) (.ok ()) notice ∧ notice.out = "" := by
  rw [noticeLimit]
  cases m.isDone with
  | true => exact ⟨{}, leaves_pure (), rfl⟩
  | false =>
    have h := (leaves_warn "").next (leaves_warn ("⚠️  Reached max cycles limit (" ++
      toString budget.toNat ++ "). Use --max-cycles to increase."))
    exact ⟨_, h, String.append_empty⟩

theorem leaves_runProgram (hsource : files o.program = .ok text)
    (hload : (Session.ofSettings s).load text = (loaded, .ok p))
    (hrun : loaded.run (o.maxCycles.getD s.maxCycles).toNat = (after, .ok count)) (trace : Bool) :
    ∃ said, ∀ dump r t, Leaves (conclude after.machine (o.maxCycles.getD s.maxCycles) dump) r t →
      Leaves (runProgram files s trace { o with dump }) r (said ++ t) := by
  let budget := o.maxCycles.getD s.maxCycles
  obtain ⟨o₁, h₁⟩ := yields_load hsource hload trace
  obtain ⟨o₂, h₂⟩ := yields_log_if trace (loaded.machine.runEvents budget.toNat)
  obtain ⟨o₃, h₃⟩ := yields_result o.json count after.machine
  refine ⟨⟨"🔧 Running: " ++ o.program ++ "\n", ""⟩ ++ (o₁ ++ (o₂ ++ o₃)), fun dump r t h => ?_⟩
  simp only [Output.append_assoc]
  refine (leaves_say _).bind (h₁.bind (h₂.bind_ite ?_))
  simp only [hrun]
  exact h₃.bind_ite h

end

/-! ## Complete runs -/

/-- An invocation that runs a program, with what it reads. The program loads, and the run ends
without an error and leaves the session `after`. -/
structure CompleteRun (files : Files) (i : Invocation) where
  options : RunOptions
  given : Settings
  settings : Settings
  text : String
  program : Program
  loaded : Session
  after : Session
  count : Nat
  command_eq : i.command = some (.run options)
  given_eq : fileSettings files i.config = .ok given
  settings_eq : ({ given with memorySize := i.memorySize.getD given.memorySize } : Settings).validate =
    .ok settings
  source_eq : files options.program = .ok text
  load_eq : (Session.ofSettings settings).load text = (loaded, .ok program)
  run_eq : loaded.run (options.maxCycles.getD settings.maxCycles).toNat = (after, .ok count)

namespace CompleteRun
variable {files : Files} {i : Invocation} (run : CompleteRun files i)

/-- The invocation with another range of rows. -/
def withDump (dump : Option String) : Invocation :=
  { i with command := some (.run { run.options with dump }) }

theorem size_le : run.after.machine.memory.size ≤ fullSize := by
  have hle : run.settings.memorySize.toNat ≤ fullSize := by
    obtain ⟨hsettings, hsize, -⟩ := Settings.validate_eq_ok_iff.1 run.settings_eq
    rw [hsettings]
    exact hsize.2
  have hafter : run.after.machine =
      (run.loaded.machine.run (run.options.maxCycles.getD run.settings.maxCycles).toNat).machine :=
    congrArg (fun r => r.1.machine) run.run_eq.symm
  rw [hafter]
  exact ((run.loaded.machine.keeps_run _).size.trans (Session.size_of_load run.load_eq)).trans_le hle

/-- Only the end depends on the rows that are asked for. -/
theorem leaves : ∃ budget said, ∀ dump r t,
    Leaves (conclude run.after.machine budget dump) r t →
      Leaves ((run.withDump dump).job files) r (said ++ t) := by
  obtain ⟨said, hsaid⟩ := leaves_runProgram run.source_eq run.load_eq run.run_eq i.trace
  refine ⟨run.options.maxCycles.getD run.settings.maxCycles, {} ++ said, fun dump r t ht => ?_⟩
  have hsettings :
      Leaves (CommandLine.settings files (run.withDump dump)) (.ok run.settings) {} := by
    rw [CommandLine.settings]
    simp only [withDump, run.given_eq, run.settings_eq]
    exact leaves_pure run.settings
  rw [Output.append_assoc]
  exact hsettings.bind (hsaid dump r t ht)

end CompleteRun

end AccumulatorMachine.CommandLine
