import AccumulatorMachine.Proofs.CommandLine.Jobs
import AccumulatorMachine.Proofs.Memory.Views
import AccumulatorMachine.Proofs.Text.Decimal
import AccumulatorMachine.Proofs.Text.Layout
import AccumulatorMachine.Proofs.Text.WordForms

/-! # Rows of memory

The rows that a run command prints after the result. A range is printed as a whole or refused at
the first address that memory does not have: its start, or else the size of memory
(`Memory.rowsOfRange_eq`). Addresses of 64 bits are a matter of tables only: the start of a range
is checked with its sign before it becomes an address.
-/

namespace AccumulatorMachine
set_option autoImplicit false
open Text

/-! ## Ranges of rows -/

namespace Memory
variable {m : Memory} {start : Int} {count : Nat}

/-- The fault of a request for `count` rows from `start` on. -/
def rangeFault? (m : Memory) (start : Int) (count : Nat) : Option AddressFault :=
  if start < 0 ∨ m.size ≤ start then some ⟨start, m.size⟩
  else if m.size < start + count then some ⟨m.size, m.size⟩
  else none

theorem rangeFault?_eq_none_iff :
    m.rangeFault? start count = none ↔ 0 ≤ start ∧ start < m.size ∧ start + count ≤ m.size := by
  unfold rangeFault?
  split
  · simp
    omega
  · split
    · simp
      omega
    · simp
      omega

theorem rangeFault?_eq_some {e : AddressFault} (h : m.rangeFault? start count = some e) :
    e = ⟨if 0 ≤ start ∧ start < m.size then m.size else start, m.size⟩ := by
  unfold rangeFault? at h
  split at h
  · rw [if_neg (by omega)]
    exact (Option.some.inj h).symm
  · split at h
    · rw [if_pos (by omega)]
      exact (Option.some.inj h).symm
    · cases h

theorem rowsOfRange_eq (h : m.size < signLimit) (start : Int) (count : Nat) :
    (do
      let first ← m.checkAddress start
      m.rowsFrom first (saturatingSum first count - first)) =
      match m.rangeFault? start count with
      | some e => .error e
      | none => .ok ((List.range' start.toNat count).map m.rowAt) := by
  have hlimit : m.size < UInt64.size := Nat.lt_trans h (by decide)
  have hsize : UInt64.size = 18446744073709551616 := rfl
  have hsign : signLimit = 9223372036854775808 := rfl
  rw [rangeFault?, checkAddress]
  by_cases hstart : start < 0 ∨ m.size ≤ start
  · rw [if_pos hstart, if_neg (by omega)]
    rfl
  · rw [if_neg hstart, if_pos (by omega)]
    obtain ⟨first, rfl⟩ := Int.eq_ofNat_of_zero_le (show 0 ≤ start by omega)
    show m.rowsFrom first (saturatingSum first count - first) = _
    rw [rowsFrom_eq, rows_eq, find?_range', saturatingSum]
    by_cases hcount : m.size < first + count
    · have hfault : m.faultAt m.size = ⟨m.size, m.size⟩ := by
        rw [faultAt_eq m hlimit, shownAddress_eq_iff.2 h]
      have hmax : max first m.size = m.size := Nat.max_eq_right (by omega)
      rw [if_pos (by omega), if_pos (by omega), hmax, ← hfault]
    · have hsum : min (first + count) (UInt64.size - 1) - first = count := by omega
      rw [if_neg (by omega), if_neg (by omega), hsum]
      rfl

end Memory

namespace CommandLine

/-! ## Texts of ranges -/

theorem unsigned?_toString {limit n : Nat} (h : n < limit) :
    unsigned? limit (toString n).toList = some n := by
  have hplus := not_mem_toString (c := '+') (by decide) n
  have hread := numeral?_toString n
  unfold unsigned?
  generalize (toString n).toList = cs at hplus hread ⊢
  split
  · simp at hplus
  · simp [hread, h]

theorem toList_toString_negSucc (n : Nat) :
    (toString (Int.negSucc n)).toList = '-' :: (toString (n + 1)).toList := by
  show ("-" ++ toString (n + 1)).toList = _
  rw [String.toList_append]
  rfl

theorem signed?_toString {limit : Nat} {v : Int} (h : -limit ≤ v) (h' : v < limit) :
    signed? limit (toString v).toList = some v := by
  cases v with
  | ofNat n =>
    have hread : unsigned? limit (toString n).toList = some n :=
      unsigned?_toString (Int.ofNat_lt.1 h')
    have hminus := not_mem_toString (c := '-') (by decide) n
    show signed? limit (toString n).toList = _
    unfold signed?
    generalize (toString n).toList = cs at hread hminus ⊢
    split
    · simp at hminus
    · rw [hread]
      rfl
  | negSucc n =>
    have hle : n + 1 ≤ limit := by omega
    rw [toList_toString_negSucc, signed?, numeral?_toString, Option.filter_some,
      if_pos (decide_eq_true hle)]
    rfl

/-- An integer is written with characters from the minus sign to the nine. -/
theorem toNat_of_mem_toString {v : Int} {c : Char} (hc : c ∈ (toString v).toList) :
    45 ≤ c.toNat ∧ c.toNat ≤ 57 := by
  have hdigit {n : Nat} (h : c ∈ (toString n).toList) : 45 ≤ c.toNat ∧ c.toNat ≤ 57 := by
    by_contra hout
    exact not_mem_toString (by omega) n h
  cases v with
  | ofNat n => exact hdigit hc
  | negSucc n =>
    rw [toList_toString_negSucc, List.mem_cons] at hc
    rcases hc with rfl | hc
    · decide
    · exact hdigit hc

theorem trim_toString (v : Int) : trim (toString v).toList = (toString v).toList := by
  refine (Tight.of_forall fun c hc => ?_).trim
  have hrange := toNat_of_mem_toString hc
  exact isBlank_eq_false (by omega) (by omega)

/-- A range is read as it is written. -/
theorem dumpRange?_toString {start : Int} {count : Nat} (h : -Memory.signLimit ≤ start)
    (h' : start < Memory.signLimit) (hcount : count < UInt64.size) :
    dumpRange? (toString start ++ ":" ++ toString count) = some (start, count) := by
  have hcut : cutAt ':' (toString start ++ ":" ++ toString count).toList =
      some ((toString start).toList, (toString count).toList) := by
    rw [String.append_assoc, String.toList_append, String.toList_append]
    refine cutAt_append fun hmem => ?_
    have hle : ':'.toNat ≤ 57 := (toNat_of_mem_toString hmem).2
    exact absurd hle (by decide)
  have htrim : trim (toString count).toList = (toString count).toList := trim_toString count
  rw [dumpRange?, hcut]
  show (do return (← signed? _ (trim _), ← unsigned? _ (trim _))) = _
  rw [show UInt64.size / 2 = Memory.signLimit from rfl, trim_toString, htrim,
    signed?_toString h h', unsigned?_toString hcount]
  rfl

/-! ## Rows at the end of a run -/

/-- The rows with their heading. -/
def tableText (rows : List MemoryRow) : String :=
  unlines ("" :: "━━━ Memory ━━━" :: rows.map MemoryRow.text)

/-- The report `r` says no more than `plain`, and then that the job failed for this reason. -/
def FailsAfter (plain : Report) (reason : String) (r : Report) : Prop :=
  ∃ before notice, plain.output.err = before ++ notice ∧
    r = ⟨1, ⟨plain.output.out, before ++ ("❌ " ++ reason ++ "\n")⟩⟩

section
variable {m : Memory} {range : String} {start : Int} {count : Nat}

theorem leaves_sayRows (h : m.size < Memory.signLimit) (hread : dumpRange? range = some (start, count))
    (hfault : m.rangeFault? start count = none) :
    Leaves (sayRows m range) (.ok ())
      ⟨tableText ((List.range' start.toNat count).map m.rowAt), ""⟩ := by
  have hrows := Memory.rowsOfRange_eq h start count
  rw [hfault] at hrows
  rw [sayRows, hread]
  simp only [hrows]
  rw [tableText, unlines_cons, unlines_cons]
  have htable := (leaves_say "━━━ Memory ━━━").next
    (leaves_forM_say MemoryRow.text ((List.range' start.toNat count).map m.rowAt))
  exact (leaves_say "").next htable

theorem leaves_sayRows_of_fault (h : m.size < Memory.signLimit)
    (hread : dumpRange? range = some (start, count)) {e : AddressFault}
    (hfault : m.rangeFault? start count = some e) :
    Leaves (sayRows m range) (.error ()) ⟨"", "❌ " ++ e.message ++ "\n"⟩ := by
  have hrows := Memory.rowsOfRange_eq h start count
  rw [hfault] at hrows
  rw [sayRows, hread]
  simp only [hrows]
  exact leaves_fail e.message

end

namespace CompleteRun
variable {files : Files} {i : Invocation} (run : CompleteRun files i) {range : String} {start : Int}
  {count : Nat}

theorem report_withDump (hread : dumpRange? range = some (start, count)) :
    let plain := ((run.withDump none).job files).report
    let report := ((run.withDump (some range)).job files).report
    plain.exit = 0 ∧
      match run.after.machine.memory.rangeFault? start count with
      | none =>
        report = ⟨0, ⟨plain.output.out ++ tableText
          ((List.range' start.toNat count).map run.after.machine.memory.rowAt), plain.output.err⟩⟩
      | some e => FailsAfter plain e.message report := by
  have hsize : run.after.machine.memory.size < Memory.signLimit :=
    Nat.lt_of_le_of_lt run.size_le (by decide)
  obtain ⟨budget, said, hsaid⟩ := run.leaves
  obtain ⟨notice, hnotice, hsilent⟩ := leaves_noticeLimit run.after.machine budget
  have hplain := (hsaid none (.ok ()) ({} ++ notice) ((leaves_pure ()).bind hnotice)).report
  rw [Output.empty_append] at hplain
  intro plain report
  have hp : plain = ⟨0, said ++ notice⟩ := hplain
  refine ⟨by rw [hp], ?_⟩
  cases hfault : run.after.machine.memory.rangeFault? start count with
  | none =>
    have htable := leaves_sayRows hsize hread hfault
    have h := (hsaid (some range) (.ok ()) _ (htable.next hnotice)).report
    have hsame : said ++ ((⟨tableText
        ((List.range' start.toNat count).map run.after.machine.memory.rowAt), ""⟩ : Output) ++ notice) =
        ⟨plain.output.out ++ tableText
          ((List.range' start.toNat count).map run.after.machine.memory.rowAt), plain.output.err⟩ := by
      rw [hp]
      ext1 <;> simp [hsilent]
    rw [hsame] at h
    exact h
  | some e =>
    have hfails := leaves_sayRows_of_fault hsize hread hfault
    have h := (hsaid (some range) (.error ()) _ hfails.stop).report
    refine ⟨said.err, notice.err, by rw [hp]; rfl, ?_⟩
    have hsame : said ++ (⟨"", "❌ " ++ e.message ++ "\n"⟩ : Output) =
        ⟨plain.output.out, said.err ++ ("❌ " ++ e.message ++ "\n")⟩ := by
      rw [hp]
      ext1 <;> simp [hsilent]
    rw [hsame] at h
    exact h

theorem withDump_eq (h : run.options.dump = some range) : run.withDump (some range) = i := by
  rw [withDump, ← h, ← run.command_eq]

theorem report_eq (hdump : run.options.dump = some range)
    (hread : dumpRange? range = some (start, count)) :
    let m := run.after.machine.memory
    let plain := ((run.withDump none).job files).report
    let report := (i.job files).report
    plain.exit = 0 ∧
      (report.exit = 0 ↔ 0 ≤ start ∧ start < m.size ∧ start + count ≤ m.size) ∧
      (report.exit = 0 → ∃ rows, m.rows (List.range' start.toNat count) = .ok rows ∧
        report.output = ⟨plain.output.out ++ tableText rows, plain.output.err⟩) ∧
      (report.exit ≠ 0 → FailsAfter plain (AddressFault.message
        ⟨if 0 ≤ start ∧ start < m.size then m.size else start, m.size⟩) report) := by
  intro m plain report
  obtain ⟨hplain, hreport⟩ := run.report_withDump hread
  rw [run.withDump_eq hdump] at hreport
  refine ⟨hplain, ?_⟩
  rw [← Memory.rangeFault?_eq_none_iff]
  cases hfault : m.rangeFault? start count with
  | none =>
    obtain ⟨hstart, hlt, hend⟩ := Memory.rangeFault?_eq_none_iff.1 hfault
    simp only [m, hfault] at hreport
    have hrows : m.rows (List.range' start.toNat count) =
        .ok ((List.range' start.toNat count).map m.rowAt) := by
      refine Memory.rows_eq_ok_iff.2 ⟨fun a ha => ?_, rfl⟩
      rw [List.mem_range'_1] at ha
      omega
    have hexit : report.exit = 0 := congrArg Report.exit hreport
    refine ⟨iff_of_true hexit rfl, fun _ => ⟨_, hrows, congrArg Report.output hreport⟩, ?_⟩
    exact fun hne => absurd hexit hne
  | some e =>
    simp only [m, hfault] at hreport
    obtain ⟨before, notice, herr, hr⟩ := hreport
    have hexit : report.exit = 1 := congrArg Report.exit hr
    rw [← Memory.rangeFault?_eq_some hfault, hexit]
    exact ⟨by simp, by simp, fun _ => ⟨before, notice, herr, hr⟩⟩

end CompleteRun

/-! ## Clipped, checked and printed views -/

section
open Memory

theorem dump_reads {m : Memory} (h : m.size < UInt64.size) (start count : Nat) :
    (m.dump start count).map Prod.fst = List.range' start (min (start + count) m.size - start) ∧
      ∀ c ∈ m.dump start count, m.read c.1 = .ok c.2 := by
  rw [dump_eq h]
  constructor
  · simp [Function.comp_def]
  · simp only [List.forall_mem_map, List.mem_range'_1]
    intro a ha
    rw [read_eq, if_pos (by omega)]

theorem rowAt_reads {m : Memory} {a : Nat} (h : a < m.size) :
    m.read a = .ok (m.rowAt a).unsigned ∧ ∀ w,
      (Word.IsBinary (m.rowAt a).binary.toList w ↔ w = (m.rowAt a).unsigned) ∧
      (Word.IsBytes (m.rowAt a).bytes.toList w ↔ w = (m.rowAt a).unsigned) ∧
      (Word.IsSigned (m.rowAt a).signed w ↔ w = (m.rowAt a).unsigned) := by
  refine ⟨?_, fun w => ⟨Word.isBinary_iff, Word.isBytes_iff, Word.isSigned_iff⟩⟩
  rw [read_eq, if_pos h]
  rfl

/-- The views of memory, each in full. A fault of a table shows its address as it is as long as that
is below 2^63. -/
theorem memory_views_exact (m : Memory) (h : m.size < UInt64.size) :
    (∀ start count : Nat,
      (m.dump start count).map Prod.fst = List.range' start (min (start + count) m.size - start) ∧
        ∀ c ∈ m.dump start count, m.read c.1 = .ok c.2) ∧
    (∀ as : List Nat,
      ((∃ rows, m.rows as = .ok rows) ↔ ∀ a ∈ as, a < m.size) ∧
      (∀ rows, m.rows as = .ok rows → rows.map MemoryRow.address = as ∧
        ∀ r ∈ rows, m.read r.address = .ok r.unsigned ∧ ∀ w,
          (Word.IsBinary r.binary.toList w ↔ w = r.unsigned) ∧
          (Word.IsBytes r.bytes.toList w ↔ w = r.unsigned) ∧
          (Word.IsSigned r.signed w ↔ w = r.unsigned)) ∧
      ∀ e, m.rows as = .error e → (∀ a ∈ as, a < UInt64.size) →
        ∃ before a after, as = before ++ a :: after ∧ (∀ b ∈ before, b < m.size) ∧ m.size ≤ a ∧
          e = ⟨shownAddress a, m.size⟩ ∧ (e.address = a ↔ a < signLimit)) ∧
    (∀ (files : Files) (i : Invocation) (run : CompleteRun files i) (range : String) (start : Int)
      (count : Nat), run.options.dump = some range → dumpRange? range = some (start, count) →
      let memory := run.after.machine.memory
      let plain := ((run.withDump none).job files).report
      let report := (i.job files).report
      plain.exit = 0 ∧
      (report.exit = 0 ↔ 0 ≤ start ∧ start < memory.size ∧ start + count ≤ memory.size) ∧
      (report.exit = 0 → ∃ rows, memory.rows (List.range' start.toNat count) = .ok rows ∧
        report.output = ⟨plain.output.out ++ tableText rows, plain.output.err⟩) ∧
      (report.exit ≠ 0 → FailsAfter plain (AddressFault.message
        ⟨if 0 ≤ start ∧ start < memory.size then memory.size else start,
          memory.size⟩) report)) ∧
    ∀ (start : Int) (count : Nat), -signLimit ≤ start → start < signLimit → count < UInt64.size →
      dumpRange? (toString start ++ ":" ++ toString count) = some (start, count) := by
  refine ⟨fun start count => dump_reads h start count, fun as => ⟨?_, ?_, ?_⟩, ?_,
    fun start count hlow hhigh hcount => dumpRange?_toString hlow hhigh hcount⟩
  · constructor
    · rintro ⟨rows, hrows⟩
      exact (rows_eq_ok_iff.1 hrows).1
    · intro hall
      exact ⟨_, rows_eq_ok_iff.2 ⟨hall, rfl⟩⟩
  · intro rows hrows
    obtain ⟨hall, rfl⟩ := rows_eq_ok_iff.1 hrows
    constructor
    · rw [List.map_map]
      exact List.map_id' as
    · rw [List.forall_mem_map]
      exact fun a ha => rowAt_reads (hall a ha)
  · intro e he h64
    obtain ⟨before, a, after, has, hbefore, hle, rfl⟩ := rows_eq_error_iff.1 he
    have ha : a < UInt64.size := h64 a (by simp [has])
    rw [faultAt_eq m ha]
    exact ⟨before, a, after, has, hbefore, hle, rfl, shownAddress_eq_iff⟩
  · exact fun files i run range start count hdump hread => run.report_eq hdump hread

/-- A run of one instruction in a memory of two words, with rows from the second word on. -/
def showing (count : Nat) : Invocation :=
  { memorySize := some 2
    command := some (.run ⟨"increment", none, false, some ("1:" ++ toString count)⟩) }

def oneIncrement : Files := fun _ => .ok "INC"

def showingRun (count : Nat) : CompleteRun oneIncrement (showing count) where
  options := ⟨"increment", none, false, some ("1:" ++ toString count)⟩
  given := {}
  settings := { memorySize := 2 }
  text := "INC"
  program := { instructions := [.accu .inc] }
  loaded := ((Session.ofSettings { memorySize := 2 }).load "INC").1
  after := (((Session.ofSettings { memorySize := 2 }).load "INC").1.run 100000).1
  count := 1
  command_eq := rfl
  given_eq := rfl
  settings_eq := rfl
  source_eq := rfl
  load_eq := rfl
  run_eq := rfl

theorem memory_views_exact_of_increment :
    ((zeros 3).dump 1 18446744073709551615).map Prod.fst = [1, 2] ∧
      (∃ e, (zeros 3).rows [2, 18446744073709551615, 3] = .error e ∧ e.address = -1) ∧
      ((showing 1).job oneIncrement).report.exit = 0 ∧
      FailsAfter (((showingRun 2).withDump none).job oneIncrement).report
        "memory address 2 out of range (memory size 2)" ((showing 2).job oneIncrement).report := by
  obtain ⟨hdump, htable, hprinted, hread⟩ := memory_views_exact (zeros 3) (by decide)
  have hrange (count : Nat) (h : count < UInt64.size) :
      dumpRange? ("1:" ++ toString count) = some (1, count) := hread 1 count (by decide) (by decide) h
  obtain ⟨-, hone, -, -⟩ := hprinted _ _ (showingRun 1) _ 1 1 rfl (hrange 1 (by decide))
  obtain ⟨-, htwo, -, hfails⟩ := hprinted _ _ (showingRun 2) _ 1 2 rfl (hrange 2 (by decide))
  obtain ⟨hlist, -⟩ := hdump 1 18446744073709551615
  have hexit : ((showing 2).job oneIncrement).report.exit ≠ 0 := by
    rw [Ne, htwo]
    decide
  obtain ⟨hinside, -, hfault⟩ := htable [2, 18446744073709551615, 3]
  obtain ⟨e, herror⟩ : ∃ e, (zeros 3).rows [2, 18446744073709551615, 3] = .error e := by
    cases hrows : (zeros 3).rows [2, 18446744073709551615, 3] with
    | ok rows => exact absurd (hinside.1 ⟨rows, hrows⟩) (by decide)
    | error e => exact ⟨e, rfl⟩
  obtain ⟨before, a, after, has, hbefore, hle, rfl, -⟩ := hfault e herror (by decide)
  -- the first address outside is the second one of the list
  have hsecond : a = 18446744073709551615 := by
    have hsize : (zeros 3).size = 3 := size_zeros 3
    rw [hsize] at hbefore hle
    cases before with
    | nil =>
      simp at has
      omega
    | cons b rest =>
      cases rest with
      | nil =>
        simp at has
        exact has.2.1.symm
      | cons c rest =>
        have hc := hbefore c (by simp)
        simp at has
        omega
  subst hsecond
  exact ⟨hlist, ⟨_, herror, rfl⟩, hone.2 (by decide), hfails hexit⟩

/-- The first address outside is 2^64 - 1, but the fault names a negative number. -/
theorem table_fault_negative :
    ∃ e, (zeros 1).rows [18446744073709551615] = .error e ∧ e.address ≠ (18446744073709551615 : Nat) ∧
      e.message = "memory address -1 out of range (memory size 1)" :=
  ⟨⟨-1, 1⟩, rfl, by decide, rfl⟩

end
end CommandLine
end AccumulatorMachine
