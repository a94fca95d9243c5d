import AccumulatorMachine.Proofs.Debugger.Boundary
import AccumulatorMachine.Proofs.Session.Bounds

/-! # Reset as a replay

A session that has loaded a text keeps the text and its settings whatever else happens to it, and it
only takes these two to make it as it was after the load. What may happen is wider than what the
operations do, since the machine of a session is open to everyone: another one may take its place at
any time (`Session.Altered`). The same is said of a debugger, of which only the session's text and
settings are out of reach (`Debugger.Altered`).
-/

namespace AccumulatorMachine
set_option autoImplicit false

/-! ## Sessions -/

namespace Session
variable {loaded s : Session}

/-- What may have become of a session without another load. -/
inductive Altered (loaded : Session) : Session → Prop
  | start : Altered loaded loaded
  | perform {s : Session} {o : Operation} :
      Altered loaded s → o.loads = false → Altered loaded (s.perform o)
  | replace {s : Session} (m : Machine) : Altered loaded s → Altered loaded (s.withMachine m)

/-- Nothing but a load touches what a reset needs. -/
theorem Altered.recalls {s₀ : Session} {text : String} {p : Program}
    (hload : s₀.load text = (loaded, .ok p)) (h : loaded.Altered s) :
    s.settings = loaded.settings ∧ s.source = loaded.source := by
  induction h with
  | start => exact ⟨rfl, rfl⟩
  | replace m _ ih => exact ih
  | @perform s o _ ho ih =>
    cases hrenews : o.renews with
    | false =>
      obtain ⟨m, hm⟩ := s.perform_eq_withMachine hrenews
      rw [hm]
      exact ih
    | true =>
      cases o with
      | load text => cases ho
      | reset =>
        -- an earlier reset has gone back to the load itself
        rw [Session.perform, reset_of_source hload ih.1 ih.2]
        exact ⟨rfl, rfl⟩
      | insert | stride | run | runToEnd | execute | jump | write | setRegisters | setMemory =>
        cases hrenews

end Session

/-! ## Debuggers -/

namespace Debugger
variable {start d : Debugger}

def Action.loads : Action → Bool
  | operate o => o.loads
  | press _ | reset => false

/-- What may have become of a debugger without another load. -/
inductive Altered (start : Debugger) : Debugger → Prop
  | start : Altered start start
  | act {d : Debugger} {a : Action} : Altered start d → a.loads = false → Altered start (d.act a)
  /-- All that is open to everyone has been replaced. -/
  | replace {d : Debugger} (m : Machine) (breakpoints : Std.TreeSet Word) (running quit : Bool)
      (status : Status) (scroll : Nat) : Altered start d →
      Altered start
        { session := d.session.withMachine m, breakpoints, running, quit, status, scroll }

theorem Altered.session (h : start.Altered d) : start.session.Altered d.session := by
  induction h with
  | start => exact .start
  | replace m _ _ _ _ _ _ ih => exact ih.replace m
  | @act d a _ ha ih =>
    cases a with
    | press k =>
      show start.session.Altered (d.press k).session
      rw [press_session]
      cases d.asks? k with
      | none => exact ih
      | some x => exact ih.perform rfl
    | reset =>
      show start.session.Altered d.reset.session
      rw [reset_session]
      exact ih.perform (o := .reset) rfl
    | operate o => exact ih.perform ha

/-- **A reset replays the load.** Whatever has become of a session since it loaded a text, a reset
succeeds and leaves what a new session with these settings is after it has loaded that text. The
reset of a debugger does the same and ends a continuous run; it never fails, and the breakpoints and
the memory view stay. -/
theorem reset_replays_load {s₀ loaded : Session} {text : String} {p : Program}
    (hload : s₀.load text = (loaded, .ok p)) :
    (∀ s, loaded.Altered s →
      s.reset = (((Session.ofSettings s₀.settings).load text).1, .ok ())) ∧
    ∀ start d : Debugger, start.session = loaded → start.Altered d →
      d.reset = { d with
        session := ((Session.ofSettings s₀.settings).load text).1
        running := false
        status := .reset } := by
  have hnew : (Session.ofSettings s₀.settings).load text = s₀.load text := Session.load_congr rfl text
  rw [hnew, hload]
  have hreset : ∀ s, loaded.Altered s → s.reset = (loaded, .ok ()) := by
    intro s hs
    obtain ⟨hsettings, hsource⟩ := hs.recalls hload
    exact Session.reset_of_source hload hsettings hsource
  refine ⟨hreset, fun start d hstart hd => ?_⟩
  subst hstart
  rw [reset, hreset d.session hd.session]
  rfl

/-- A debugger of two words in a memory of four, whose view of memory starts at the address 2. -/
def untouched : Debugger :=
  { session := ((Session.ofSettings { memorySize := 4 }).load "INC\nSTO 3").1, scroll := 2 }

/-- The debugger half way through the first word, given a smaller memory, another program in it, and
a branch outside any cycle. -/
def tinkered : Debugger :=
  (((untouched.act (.press .halfStep)).act (.operate (.setMemory (.zeros 2)))).act
    (.operate (.insert "DEC"))).act (.operate (.execute (.brz 1)))

theorem reset_replays_load_of_tinkered :
    (∃ p, (Session.ofSettings { memorySize := 4 }).load "INC\nSTO 3" = (untouched.session, .ok p)) ∧
      untouched.Altered tinkered ∧ tinkered.machine.phase = .firstPhaseDone ∧
      tinkered.machine.memory.size = 2 ∧ tinkered.session.reset = (untouched.session, .ok ()) ∧
      tinkered.reset.session = untouched.session ∧ tinkered.reset.status = .reset ∧
      tinkered.reset.scroll = 2 := by
  have hload : (Session.ofSettings { memorySize := 4 }).load "INC\nSTO 3" =
      (untouched.session, .ok { instructions := [.accu .inc, .sto 3] }) := rfl
  have haltered : untouched.Altered tinkered :=
    .act (.act (.act (.act .start rfl) rfl) rfl) rfl
  obtain ⟨hsession, hdebugger⟩ := reset_replays_load hload
  have hreset := hdebugger untouched tinkered rfl haltered
  refine ⟨⟨_, hload⟩, haltered, rfl, rfl, hsession tinkered.session haltered.session, ?_, ?_, ?_⟩
  · rw [hreset]
    rfl
  · rw [hreset]
  · rw [hreset]
    rfl

end Debugger
end AccumulatorMachine
