import AccumulatorMachine.Proofs.Session.Bounds

/-! # What a reset recalls

A reset is to load the last good text again, whatever has been refused since. A session only keeps
the text of its last load, and none if that load was refused (`Session.Lived.keeps_source`). So a
reset does what it should just if nothing has been refused since the last good text, or if there has
been none. A text that is refused costs the session the one before it.
-/

namespace AccumulatorMachine.Session
set_option autoImplicit false

/-! ## How sessions come about -/

/-- The session `s` has come about with these settings. The last text that it has accepted is
`good`, and `refused` says whether it has refused one since. -/
inductive Lived (settings : Settings) : Option String → Bool → Session → Prop
  | new : Lived settings none false (ofSettings settings)
  | accept {s after : Session} {good : Option String} {refused : Bool} {text : String}
      {p : Program} :
      Lived settings good refused s → s.load text = (after, .ok p) →
      Lived settings (some text) false after
  | refuse {s after : Session} {good : Option String} {refused : Bool} {text : String}
      {e : AssemblyError} :
      Lived settings good refused s → s.load text = (after, .error e) →
      Lived settings good true after
  | perform {s : Session} {good : Option String} {refused : Bool} {o : Operation} :
      Lived settings good refused s → o.loads = false → Lived settings good refused (s.perform o)
  /-- The machine is open to everyone. -/
  | replace {s : Session} {good : Option String} {refused : Bool} (m : Machine) :
      Lived settings good refused s → Lived settings good refused (s.withMachine m)

/-- The text that is kept when `good` was the last to be accepted: none after a refusal. -/
def recalled (good : Option String) (refused : Bool) : Option String :=
  if refused then none else good

/-- A new session after the load of this text, if there is one. -/
def replayed (settings : Settings) : Option String → Session
  | some text => ((ofSettings settings).load text).1
  | none => ofSettings settings

/-- The text is one that these settings accept, if there is one. -/
def Accepted (settings : Settings) (text? : Option String) : Prop :=
  ∀ text, text? = some text → ∃ after p, (ofSettings settings).load text = (after, .ok p)

section
variable {settings : Settings} {good : Option String} {refused : Bool} {s : Session}

/-! ## What is recalled -/

theorem Accepted.replayed_eq (h : Accepted settings good) :
    (replayed settings good).settings = settings ∧ (replayed settings good).source = good := by
  cases good with
  | none => exact ⟨rfl, rfl⟩
  | some text =>
    obtain ⟨after, p, hload⟩ := h text rfl
    obtain ⟨m, -, hafter⟩ := load_eq_ok_iff.1 hload
    rw [replayed, hload, hafter]
    exact ⟨rfl, rfl⟩

theorem Accepted.recalled (h : Accepted settings good) (refused : Bool) :
    Accepted settings (recalled good refused) := by
  cases refused with
  | true => exact fun _ hnone => by cases hnone
  | false => exact h

/-- A reset goes by the settings and the text that are kept, and by nothing else. -/
theorem Accepted.reset_eq (h : Accepted settings good) (hsettings : s.settings = settings)
    (hsource : s.source = good) : s.reset = (replayed settings good, .ok ()) := by
  cases good with
  | none =>
    rw [reset, hsource, emptied, hsettings]
    rfl
  | some text =>
    obtain ⟨after, p, hload⟩ := h text rfl
    obtain ⟨m, -, hafter⟩ := load_eq_ok_iff.1 hload
    rw [replayed, hload]
    refine reset_of_source hload ?_ ?_
    · rw [hafter]
      exact hsettings
    · rw [hafter]
      exact hsource

/-- The text that a session keeps is its last good one, until it refuses one. -/
theorem Lived.keeps_source (h : Lived settings good refused s) :
    s.settings = settings ∧ s.source = recalled good refused ∧ Accepted settings good := by
  induction h with
  | new => exact ⟨rfl, rfl, fun _ h => by cases h⟩
  | @accept s after good refused text p _ hload ih =>
    obtain ⟨m, -, hafter⟩ := load_eq_ok_iff.1 hload
    rw [hafter]
    refine ⟨ih.1, rfl, fun t ht => ?_⟩
    cases ht
    exact ⟨after, p, (load_congr ih.1.symm text).trans hload⟩
  | @refuse s after good refused text e _ hload ih =>
    rw [load_eq_error hload]
    exact ⟨ih.1, rfl, ih.2.2⟩
  | replace m _ ih => exact ih
  | @perform s good refused o _ ho ih =>
    obtain ⟨hsettings, hsource, hgood⟩ := ih
    cases hrenews : o.renews with
    | false =>
      obtain ⟨m, hm⟩ := s.perform_eq_withMachine hrenews
      rw [hm]
      exact ⟨hsettings, hsource, hgood⟩
    | true =>
      cases o with
      | load => cases ho
      | reset =>
        -- a reset keeps what it has recalled
        have hkept := hgood.recalled refused
        have hreset := hkept.reset_eq hsettings hsource
        rw [Session.perform, hreset]
        exact ⟨hkept.replayed_eq.1, hkept.replayed_eq.2, hgood⟩
      | insert | stride | run | runToEnd | execute | jump | write | setRegisters | setMemory =>
        cases hrenews

theorem Accepted.replayed_inj {other : Option String} (h : Accepted settings good)
    (hother : Accepted settings other) :
    replayed settings good = replayed settings other ↔ good = other := by
  refine ⟨fun heq => ?_, fun heq => by rw [heq]⟩
  rw [← h.replayed_eq.2, ← hother.replayed_eq.2, heq]

theorem Lived.reset_eq (h : Lived settings good refused s) :
    s.reset = (replayed settings (recalled good refused), .ok ()) := by
  obtain ⟨hsettings, hsource, hgood⟩ := h.keeps_source
  exact (hgood.recalled refused).reset_eq hsettings hsource

/-- **A reset recalls the last good text exactly if none has been refused since.** Whatever a
session has gone through, a reset leaves what a new session is after the last good text just if no
text has been refused since that one, or if there was none. A text that is refused leaves a session
whose reset gives an empty one. This is what its reset would have given before just if there was
nothing left to recall: no text had been accepted, or another had been refused since. -/
theorem reset_recalls_exact (h : Lived settings good refused s) :
    (s.reset = (replayed settings good, .ok ()) ↔ good = none ∨ refused = false) ∧
    ∀ text after e, s.load text = (after, .error e) →
      after.reset = (ofSettings settings, .ok ()) ∧
      (after.reset = s.reset ↔ good = none ∨ refused = true) ∧
      (after.reset = (replayed settings good, .ok ()) ↔ good = none) := by
  have hgood : Accepted settings good := h.keeps_source.2.2
  have hsame (kept other : Option String) (hkept : Accepted settings kept)
      (hother : Accepted settings other) :
      (replayed settings kept, (.ok () : Except AssemblyError Unit)) =
        (replayed settings other, .ok ()) ↔ kept = other := by
    rw [Prod.mk.injEq, hkept.replayed_inj hother, and_iff_left rfl]
  have hrecalled := hgood.recalled refused
  have hnone : Accepted settings none := hgood.recalled true
  refine ⟨?_, fun text after e hload => ?_⟩
  · rw [h.reset_eq, hsame _ _ hrecalled hgood]
    cases refused with
    | true => simp [recalled, eq_comm]
    | false => simp [recalled]
  · have hreset : after.reset = (replayed settings none, .ok ()) := (h.refuse hload).reset_eq
    refine ⟨hreset, ?_, ?_⟩
    · rw [hreset, h.reset_eq, hsame _ _ hnone hrecalled]
      cases refused with
      | true => simp [recalled]
      | false => simp [recalled, eq_comm]
    · rw [hreset, hsame _ _ hnone hgood, eq_comm]

end

/-- A session of four words that has run the only instruction of its program. -/
def finished : Session :=
  (((ofSettings { memorySize := 4 }).load "INC").1).perform (.run 5)

theorem reset_recalls_exact_of_finished :
    Lived { memorySize := 4 } (some "INC") false finished ∧
      finished.reset = (replayed { memorySize := 4 } (some "INC"), .ok ()) ∧
      (∃ after e, finished.load "JMP 4" = (after, .error e)) ∧
      (finished.load "JMP 4").1.reset = (ofSettings { memorySize := 4 }, .ok ()) := by
  have hload : (ofSettings { memorySize := 4 }).load "INC" =
      (((ofSettings { memorySize := 4 }).load "INC").1, .ok { instructions := [.accu .inc] }) := rfl
  have hlived : Lived { memorySize := 4 } (some "INC") false finished :=
    (Lived.new.accept hload).perform rfl
  have hrefused : finished.load "JMP 4" =
      (ofSettings { memorySize := 4 }, .error (.malformed 1 "JMP 4")) := rfl
  obtain ⟨hrecalls, hforgets⟩ := reset_recalls_exact hlived
  refine ⟨hlived, hrecalls.2 (.inr rfl), ⟨_, _, hrefused⟩, ?_⟩
  exact (hforgets _ _ _ hrefused).1

/-- The program is there again after a reset, but not if a text has been refused before it. -/
theorem refused_text_costs_program :
    (finished.load "JMP 4").2 = .error (.malformed 1 "JMP 4") ∧
      finished.reset.1.machine.lastAddress = some 0 ∧
      (finished.load "JMP 4").1.reset.1.machine.lastAddress = none ∧
      (finished.load "JMP 4").1.reset ≠ finished.reset := by
  have hbefore : finished.reset.1.machine.lastAddress = some 0 := rfl
  have hafter : (finished.load "JMP 4").1.reset.1.machine.lastAddress = none := rfl
  refine ⟨rfl, hbefore, hafter, fun heq => ?_⟩
  rw [heq, hbefore] at hafter
  cases hafter

end AccumulatorMachine.Session
