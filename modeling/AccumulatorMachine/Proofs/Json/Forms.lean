import AccumulatorMachine.Json.Forms
import AccumulatorMachine.Proofs.Json.Records
import AccumulatorMachine.Proofs.Json.RoundTrip
import AccumulatorMachine.Proofs.Settings

/-! # JSON forms read back

Every instruction, snapshot, register file and memory is read back from the text that it is written
as, with all bits that it has, and the three records also from any other form
(`json_forms_exact`). Settings are read back as far as they are valid.
-/

namespace AccumulatorMachine
set_option autoImplicit false
open Text

/-! ## Values and parts -/

namespace Json

theorem nat?_nat {limit n : Nat} (h : n < limit) : nat? limit (.nat n) = some n := by
  rw [nat, nat?, numeral?_toString, Option.filter_some, if_pos (decide_eq_true h)]

@[simp] theorem word?_nat (w : Word) : word? (.nat w.toNat) = some w := by
  rw [word?, nat?_nat w.toNat_lt, Option.map_some, UInt16.ofNat_toNat]

@[simp] theorem uint64?_nat (n : UInt64) : uint64? (.nat n.toNat) = some n := by
  rw [uint64?, nat?_nat n.toNat_lt, Option.map_some, UInt64.ofNat_toNat]

theorem bool?_bool (b : Bool) : bool? (.bool b) = some b := rfl

section
variable {α : Type} {form : α → Json} {read : Json → Option α}

theorem part?_optional (hread : ∀ x, read (form x) = some x) (hform : ∀ x, form x ≠ .null)
    (o : Option α) : part? read (some (optional form o)) = some o := by
  cases o with
  | none => rfl
  | some x =>
    have hx := hread x
    have hx' := hform x
    rw [optional]
    generalize form x = j at hx hx'
    cases j with
    | null => exact absurd rfl hx'
    | _ => simp [part?, hx]

theorem proper_optional (h : ∀ x, Proper (form x)) (o : Option α) : Proper (optional form o) := by
  cases o with
  | none => exact .null
  | some x => exact h x

end

theorem proper_record {fields : List (String × Json)} (h : ∀ field ∈ fields, Proper field.2) :
    Proper (record fields) := by
  refine .object fun member hmember => ?_
  obtain ⟨field, hfield, rfl⟩ := List.mem_map.1 hmember
  exact h field hfield

end Json

/-! ## Instructions -/

namespace Instruction

variable {i : Instruction}

theorem ofKind_of_given {a : Word} (h : i.given? = some a) :
    i.kind.hasAddress = true ∧ ofKind i.kind a = i := by
  cases i <;> simp_all [ofKind, kind, given?, Kind.hasAddress]

theorem ofKind_of_not_given (h : i.given? = none) :
    i.kind.hasAddress = false ∧ ofKind i.kind 0 = i := by
  cases i <;> simp_all [ofKind, kind, given?, Kind.hasAddress]

theorem toJson_of_given {a : Word} (h : i.given? = some a) :
    i.toJson = .object [(some i.kind.tag, .nat a.toNat)] := by
  rw [toJson, h]

theorem toJson_of_not_given (h : i.given? = none) : i.toJson = .text i.kind.tag := by
  rw [toJson, h]

theorem toJson_ne_null (i : Instruction) : i.toJson ≠ .null := by
  unfold toJson
  split <;> simp [Json.text]

theorem proper_toJson (i : Instruction) : i.toJson.Proper := by
  unfold toJson
  split
  · next a _ =>
    refine .object fun member hmember => ?_
    rw [List.mem_singleton.1 hmember]
    exact Json.proper_nat a.toNat
  · exact .string _

theorem ofJson?_toJson (i : Instruction) : ofJson? i.toJson = some i := by
  cases h : i.given? with
  | some a =>
    obtain ⟨haddress, hkind⟩ := ofKind_of_given h
    rw [toJson_of_given h]
    simp [ofJson?, ofMember?, Kind.ofTag?_tag, haddress, hkind]
  | none =>
    obtain ⟨haddress, hkind⟩ := ofKind_of_not_given h
    rw [toJson_of_not_given h]
    simp [ofJson?, Json.text, Kind.ofTag?_tag, haddress, hkind]

end Instruction

/-! ## Records -/

section
variable {j : Json}

theorem Snapshot.proper_toJson (s : Snapshot) : s.toJson.Proper := by
  have hword (o : Option Word) : (Json.optional (.nat ·.toNat) o).Proper :=
    Json.proper_optional (fun w => Json.proper_nat w.toNat) o
  refine Json.proper_record ?_
  simp only [List.forall_mem_cons]
  exact ⟨Json.proper_optional Instruction.proper_toJson _, hword _, hword _, hword _,
    Json.proper_optional .bool _, by simp⟩

theorem Snapshot.ofJson?_of_isForm {s : Snapshot} (h : Json.IsForm s.toJson j) :
    ofJson? j = some s := by
  have hfields : j.wholeFields? fieldNames = some [some (.optional Instruction.toJson s.instruction),
      some (.optional (.nat ·.toNat) s.oldAccumulator), some (.optional (.nat ·.toNat) s.aluResult),
      some (.optional (.nat ·.toNat) s.memoryValue), some (.optional .bool s.branchTaken)] :=
    Json.wholeFields?_of_isForm (by simp) h
  have hinstruction := Json.part?_optional Instruction.ofJson?_toJson Instruction.toJson_ne_null
  have hword (o : Option Word) :
      Json.part? Json.word? (some (.optional (.nat ·.toNat) o)) = some o :=
    Json.part?_optional Json.word?_nat (by simp [Json.nat]) o
  have hbool (o : Option Bool) : Json.part? Json.bool? (some (.optional .bool o)) = some o :=
    Json.part?_optional Json.bool?_bool (by simp) o
  rw [ofJson?, hfields]
  simp [hinstruction, hword, hbool]

theorem Registers.proper_toJson (r : Registers) : r.toJson.Proper := by
  refine Json.proper_record ?_
  simp only [List.forall_mem_cons]
  exact ⟨Json.proper_nat _, Json.proper_nat _, by simp⟩

theorem Registers.ofJson?_of_isForm {r : Registers} (h : Json.IsForm r.toJson j) :
    ofJson? j = some r := by
  have hfields : j.fields? fieldNames =
      some [some (.nat r.accumulator.toNat), some (.nat r.pc.toNat)] :=
    Json.fields?_of_isForm (by simp) h
  rw [ofJson?, hfields]
  simp

theorem Memory.proper_toJson (m : Memory) : m.toJson.Proper := by
  refine Json.proper_record ?_
  simp only [List.forall_mem_cons]
  refine ⟨.array fun item hitem => ?_, by simp⟩
  obtain ⟨w, -, rfl⟩ := List.mem_map.1 hitem
  exact Json.proper_nat w.toNat

theorem Memory.ofJson?_of_isForm {m : Memory} (h : Json.IsForm m.toJson j) :
    ofJson? j = some m := by
  have hfields : j.fields? ["cells"] =
      some [some (.array (m.cells.toList.map fun w => .nat w.toNat))] :=
    Json.fields?_of_isForm (by simp) h
  have hwords (words : List Word) : (words.map fun w => Json.nat w.toNat).mapM Json.word? =
      some words := by
    induction words with
    | nil => rfl
    | cons w words ih => simp [ih]
  rw [ofJson?, hfields]
  simp [Json.items?, hwords]

end

/-! ## Settings -/

namespace Settings

/-- The members of the record of settings. -/
def members (s : Settings) : List (String × Json) :=
  [("memory_size", .nat s.memorySize.toNat), ("max_cycles", .nat s.maxCycles.toNat)]

variable {s : Settings} {j j' : Json}

theorem field?_nat (default n : UInt64) : field? default (some (.nat n.toNat)) = some n :=
  Json.uint64?_nat n

theorem proper_toJson (s : Settings) : s.toJson.Proper := by
  refine Json.proper_record ?_
  simp only [List.forall_mem_cons]
  exact ⟨Json.proper_nat _, Json.proper_nat _, by simp⟩

theorem ofJson?_of_isForm (h : Json.IsForm s.toJson j) : ofJson? j = some s := by
  have hfields : j.fields? fieldNames =
      some [some (.nat s.memorySize.toNat), some (.nat s.maxCycles.toNat)] :=
    Json.fields?_of_isForm (by simp) h
  rw [ofJson?, hfields]
  simp [field?_nat]

/-- A field that is missing has its default. -/
theorem ofJson?_of_omits (h : Json.Omits ({} : Settings).members j j') : ofJson? j = ofJson? j' := by
  have hsize : field? 4096 none = field? 4096 (some (.nat 4096)) := (field?_nat 4096 4096).symm
  have hcycles : field? 100000 none = field? 100000 (some (.nat 100000)) :=
    (field?_nat 100000 100000).symm
  cases h with
  | @member field members members' hfield habsent hmembers =>
    have hnone := Json.lookup_of_absent habsent
    rw [ofJson?, ofJson?, Json.fields?_perm hmembers, Json.fields?_cons habsent, Json.fields?]
    split
    · simp only [Settings.members, List.mem_cons, List.not_mem_nil, or_false] at hfield
      obtain rfl | rfl := hfield
      · simp [fieldNames, hnone, hsize]
      · simp [fieldNames, hnone, hcycles]
    · rfl
  | @item items field hfield =>
    cases items with
    | nil =>
      cases hfield
      simp [ofJson?, Json.fields?, fieldNames, hsize, hcycles]
    | cons item items =>
      cases items with
      | nil =>
        cases hfield
        simp [ofJson?, Json.fields?, fieldNames, hcycles]
      | cons => cases hfield

end Settings

/-! ## Texts -/

namespace Json

/-- What the value of a text stands for. -/
def decode? {α : Type} (ofJson? : Json → Option α) (text : String) : Option α :=
  (read? text).bind ofJson?

/-- The text writes the record: it is the compact text, or its value is one of the forms. -/
inductive Writes (text : String) (j : Json) : Prop
  | compact (h : text = j.compact)
  | form {j' : Json} (hread : read? text = some j') (hform : IsForm j j')

theorem IsForm.refl (fields : List (String × Json)) : IsForm (record fields) (record fields) :=
  .object (fun _ hother => absurd hother List.not_mem_nil) (.of_eq (List.append_nil fields).symm)

theorem Writes.exists_form {text : String} {j : Json} (h : Writes text j) (hproper : j.Proper)
    (hj : IsForm j j) : ∃ j', read? text = some j' ∧ IsForm j j' := by
  cases h with
  | compact h => exact ⟨j, h ▸ read?_compact hproper, hj⟩
  | form hread hform => exact ⟨_, hread, hform⟩

theorem decode?_of_read? {α : Type} {ofJson? : Json → Option α} {text : String} {j : Json}
    (h : read? text = some j) : decode? ofJson? text = ofJson? j := by
  rw [decode?, h, Option.bind_some]

end Json

/-- The error is about settings that have been read, not about reading them. -/
def SettingsError.IsInvalid : SettingsError → Prop
  | memorySize _ | maxCycles => True
  | file _ | json => False

theorem Settings.read_congr {text text' : String}
    (h : Json.decode? ofJson? text = Json.decode? ofJson? text') : read text = read text' := by
  unfold Json.decode? at h
  rw [read, read, h]

theorem Settings.read_of_decode? {text : String} {s : Settings}
    (h : Json.decode? ofJson? text = some s) : read text = s.validate := by
  unfold Json.decode? at h
  rw [read, h]

theorem Settings.validate_or (s : Settings) :
    s.validate = .ok s ∨ ∃ e, e.IsInvalid ∧ s.validate = .error e := by
  by_cases hsize : IsMemorySize s.memorySize
  · by_cases hcycles : s.maxCycles = 0
    · exact .inr ⟨.maxCycles, trivial, validate_of_maxCycles hsize hcycles⟩
    · exact .inl (validate_of_valid hsize hcycles)
  · exact .inr ⟨.memorySize s.memorySize, trivial, validate_of_memorySize hsize⟩

/-- **What is written is read back.** The text of an instruction gives the instruction with all bits
of its operand. A text that writes a snapshot, a register file or a memory gives it again, and one
that writes settings gives these if they are valid, and the complaint about them if not. Settings
without a field are read like those with its default. -/
theorem json_forms_exact :
    (∀ i : Instruction, Json.decode? Instruction.ofJson? i.toJson.compact = some i) ∧
    (∀ (s : Snapshot) (text : String), Json.Writes text s.toJson →
      Json.decode? Snapshot.ofJson? text = some s) ∧
    (∀ (r : Registers) (text : String), Json.Writes text r.toJson →
      Json.decode? Registers.ofJson? text = some r) ∧
    (∀ (m : Memory) (text : String), Json.Writes text m.toJson →
      Json.decode? Memory.ofJson? text = some m) ∧
    (∀ (c : Settings) (text : String), Json.Writes text c.toJson →
      Settings.read text = c.validate ∧
        (c.validate = .ok c ∨ ∃ e, e.IsInvalid ∧ c.validate = .error e)) ∧
    ∀ (j j' : Json) (text text' : String), Json.Omits ({} : Settings).members j j' →
      Json.read? text = some j → Json.read? text' = some j' →
      Settings.read text = Settings.read text' := by
  refine ⟨fun i => ?_, fun s text h => ?_, fun r text h => ?_, fun m text h => ?_,
    fun c text h => ?_, fun j j' text text' h hread hread' => ?_⟩
  · rw [Json.decode?_of_read? (Json.read?_compact i.proper_toJson), i.ofJson?_toJson]
  · obtain ⟨j, hread, hform⟩ := h.exists_form s.proper_toJson (.refl _)
    rw [Json.decode?_of_read? hread, Snapshot.ofJson?_of_isForm hform]
  · obtain ⟨j, hread, hform⟩ := h.exists_form r.proper_toJson (.refl _)
    rw [Json.decode?_of_read? hread, Registers.ofJson?_of_isForm hform]
  · obtain ⟨j, hread, hform⟩ := h.exists_form m.proper_toJson (.refl _)
    rw [Json.decode?_of_read? hread, Memory.ofJson?_of_isForm hform]
  · obtain ⟨j, hread, hform⟩ := h.exists_form c.proper_toJson (.refl _)
    have hdecode : Json.decode? Settings.ofJson? text = some c := by
      rw [Json.decode?_of_read? hread, Settings.ofJson?_of_isForm hform]
    exact ⟨Settings.read_of_decode? hdecode, c.validate_or⟩
  · refine Settings.read_congr ?_
    rw [Json.decode?_of_read? hread, Json.decode?_of_read? hread', Settings.ofJson?_of_omits h]

/-- Registers in another order, and a note between them. -/
def annotatedText : String :=
  "\x7b\"program_counter\":4097,\"note\":[1.5e3],\"accumulator\":1\x7d"

/-- Settings without a memory size. -/
def unsizedText : String := "\x7b\"max_cycles\":5\x7d"

theorem json_forms_exact_of_annotated :
    Json.Writes annotatedText (Registers.toJson ⟨1, 4097⟩) ∧
      Json.decode? Registers.ofJson? annotatedText = some ⟨1, 4097⟩ ∧
      Settings.read unsizedText = .ok { maxCycles := 5 } := by
  obtain ⟨-, -, hregisters, -, hsettings, homits⟩ := json_forms_exact
  have hwrites : Json.Writes annotatedText (Registers.toJson ⟨1, 4097⟩) := by
    have hnote : (Json.array [.number "1.5e3"]).Proper :=
      .array (by simpa using .number (by decide))
    have hproper : (Json.record [("program_counter", .nat 4097), ("note", .array [.number "1.5e3"]),
        ("accumulator", .nat 1)]).Proper := by
      refine Json.proper_record ?_
      simp only [List.forall_mem_cons]
      exact ⟨Json.proper_nat _, hnote, Json.proper_nat _, by simp⟩
    have hread := Json.read?_compact hproper
    rw [show Json.compact _ = annotatedText by decide +kernel] at hread
    exact .form hread (.object (by simp) (@List.perm_append_comm _ [_, _] [_]))
  have hsized := hsettings { maxCycles := 5 } _ (.compact rfl)
  have hunsized : (Json.object [(some "max_cycles", .nat 5)]).Proper :=
    .object (by simpa using Json.proper_nat 5)
  have hread := Json.read?_compact hunsized
  rw [show Json.compact _ = unsizedText by decide +kernel] at hread
  have homitted : Json.Omits ({} : Settings).members (.object [(some "max_cycles", .nat 5)])
      (Settings.toJson { maxCycles := 5 }) :=
    .member (List.mem_cons_self ..) (by simp) (.refl _)
  refine ⟨hwrites, hregisters _ _ hwrites, ?_⟩
  rw [homits _ _ _ _ homitted hread (Json.read?_compact (Settings.proper_toJson _)), hsized.1]
  rfl

end AccumulatorMachine
