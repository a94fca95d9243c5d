import AccumulatorMachine.Proofs.Assembly.Agreement
import AccumulatorMachine.Proofs.Assembly.Exactness
import Mathlib.Logic.Relation

/-! # Rearranged source texts

Neither the definition of a constant nor a data directive takes an address, so no label moves when
such a line does, and a name may be used before it is defined. A constant may stand anywhere; the
order of the data counts, as a later datum replaces an earlier one at its address, and so a data
directive may move past any lines but other data directives. `Rearranged` is what such moves make
of a source text, and `assemble_rearranged` says that its program stays.
-/

namespace AccumulatorMachine.Assembly
set_option autoImplicit false
open Text

/-! ## Moving a line -/

/-- Lines without instructions move past others if they have no data to exchange with them and if
what they define does not depend on their place. -/
theorem agrees_swap {moving between : List Line} (hcommands : commands moving = [])
    (hplace : ∀ n, definitions n moving = definitions 0 moving)
    (hdata : data moving ++ data between = data between ++ data moving) (before after : List Line) :
    Agrees (before ++ (moving ++ between) ++ after) (before ++ (between ++ moving) ++ after) where
  commands := by simp only [commands_append, hcommands, List.nil_append, List.append_nil]
  data := by simp only [data_append, hdata]
  definitions := by
    simp only [definitions_append, commands_append, hcommands, hplace (0 + _), hplace (0 + _ + _),
      List.nil_append, List.append_nil, List.length_nil, Nat.add_zero]
    exact (List.perm_append_comm.append_left _).append_right _

theorem agrees_move_constant (s : String) (x : Operand) (before between after : List Line) :
    Agrees (before ++ .constant s x :: between ++ after)
      (before ++ between ++ .constant s x :: after) := by
  have hdata : data [.constant s x] ++ data between = data between ++ data [.constant s x] :=
    (List.append_nil _).symm
  simpa using agrees_swap rfl (fun _ => rfl) hdata before after

theorem agrees_move_data (a v : Operand) {between : List Line} (h : data between = [])
    (before after : List Line) :
    Agrees (before ++ .data a v :: between ++ after) (before ++ between ++ .data a v :: after) := by
  have hdata : data [.data a v] ++ data between = data between ++ data [.data a v] := by
    rw [h, List.append_nil, List.nil_append]
  simpa using agrees_swap rfl (fun _ => rfl) hdata before after

/-! ## The forms of lines that move -/

/-- The line is the definition of a constant, or it is malformed. -/
def HasConstantForm (text : List Char) : Prop := (code text).head? ≠ some ':' ∧ '=' ∈ code text

/-- The line is a data directive, or it is malformed. -/
def HasDataForm (text : List Char) : Prop := (code text).head? = some ':'

instance (text : List Char) : Decidable (HasConstantForm text) :=
  inferInstanceAs (Decidable ((code text).head? ≠ some ':' ∧ '=' ∈ code text))

instance (text : List Char) : Decidable (HasDataForm text) :=
  inferInstanceAs (Decidable ((code text).head? = some ':'))

theorem IsLine.isForm {text : List Char} {l : Line} (h : IsLine text l) : IsForm (code text) l := by
  obtain ⟨cs, hcode, hform⟩ := h
  exact (isCode_iff.1 hcode).symm ▸ hform

theorem HasConstantForm.eq_constant {text : List Char} {l : Line} (h : HasConstantForm text)
    (hl : IsLine text l) : ∃ s x, l = .constant s x := by
  obtain ⟨hhead, hmem⟩ := h
  generalize hcode : code text = cs at hhead hmem
  cases hcode ▸ hl.isForm with
  | blank => simp at hmem
  | data => simp at hhead
  | constant => exact ⟨_, _, rfl⟩
  | label hno => exact absurd hmem hno
  | labelled hno => exact absurd hmem hno
  | command hno => exact absurd hmem hno

theorem hasDataForm_iff {text : List Char} {l : Line} (hl : IsLine text l) :
    HasDataForm text ↔ ∃ a v, l = .data a v := by
  rw [HasDataForm]
  generalize hcode : code text = cs
  cases hcode ▸ hl.isForm with
  | blank => simp
  | data => simp
  | constant hhead _ hs => simpa [List.head?_append_of_ne_nil _ hs.ne_nil] using hhead
  | @label n r s _ hn hs => simpa using hs.head?_ne_colon hn r
  | @labelled n r s c _ hn hs => simpa using hs.head?_ne_colon hn r
  | command _ hn => simpa using fun hc => hn (List.mem_of_mem_head? hc)

/-! ## Moving a line of a source text -/

/-- One line has been moved past those `between`. -/
inductive Moved : List (List Char) → List (List Char) → Prop
  | constant {text : List Char} {before between after : List (List Char)} : HasConstantForm text →
      Moved (before ++ text :: between ++ after) (before ++ between ++ text :: after)
  | data {text : List Char} {before between after : List (List Char)} : HasDataForm text →
      (∀ t ∈ between, ¬HasDataForm t) →
      Moved (before ++ text :: between ++ after) (before ++ between ++ text :: after)

/-- Definitions of constants have been moved, down or up, to any place, and data directives to any
place that leaves their order. -/
def Rearranged (source source' : String) : Prop :=
  Relation.EqvGen Moved (lines source.toList) (lines source'.toList)

theorem data_readings {texts : List (List Char)} (h : ∀ t ∈ texts, ¬HasDataForm t) :
    data (readings texts) = [] := by
  rw [data, List.filterMap_eq_nil_iff]
  intro s hs
  obtain ⟨l, hl, hsl⟩ := List.mem_filterMap.1 hs
  obtain ⟨t, ht, htl⟩ := List.mem_filterMap.1 hl
  have hno := h t ht
  rw [hasDataForm_iff (readLine_eq_some_iff.1 htl)] at hno
  cases s with
  | command => rfl
  | data a v =>
    cases l with
    | data => exact absurd ⟨_, _, rfl⟩ hno
    | label _ c => cases c <;> cases hsl
    | _ => cases hsl

/-- A line that can be read is moved with what it says; one that cannot says nothing. -/
theorem agrees_readings_move {text : List Char} {before between after : List (List Char)}
    (h : ∀ l, IsLine text l →
      Agrees (readings before ++ l :: readings between ++ readings after)
        (readings before ++ readings between ++ l :: readings after)) :
    Agrees (readings (before ++ text :: between ++ after))
      (readings (before ++ between ++ text :: after)) := by
  cases hl : readLine text with
  | none =>
    simp only [readings, List.filterMap_append, List.filterMap_cons_none hl, List.append_assoc]
    exact .refl _
  | some l =>
    have hline : IsLine text l := readLine_eq_some_iff.1 hl
    simp only [readings_append, readings_cons hline]
    exact h l hline

/-- Moving a line keeps the lines, and what they say in agreement. -/
theorem Moved.keeps {texts texts' : List (List Char)} (h : Moved texts texts') :
    texts.Perm texts' ∧ Agrees (readings texts) (readings texts') := by
  have hperm (text : List Char) (before between after : List (List Char)) :
      (before ++ text :: between ++ after).Perm (before ++ between ++ text :: after) := by
    rw [List.append_assoc, List.append_assoc]
    exact List.perm_middle.symm.append_left before
  cases h with
  | @constant text before between after htext =>
    refine ⟨hperm text before between after, agrees_readings_move fun l hl => ?_⟩
    obtain ⟨s, x, rfl⟩ := htext.eq_constant hl
    exact agrees_move_constant s x _ _ _
  | @data text before between after htext hbetween =>
    refine ⟨hperm text before between after, agrees_readings_move fun l hl => ?_⟩
    obtain ⟨a, v, rfl⟩ := (hasDataForm_iff hl).1 htext
    exact agrees_move_data a v (data_readings hbetween) _ _

/-! ## Any number of moves -/

theorem keeps_of_eqvGen {texts texts' : List (List Char)} (h : Relation.EqvGen Moved texts texts') :
    texts.Perm texts' ∧ Agrees (readings texts) (readings texts') := by
  induction h with
  | rel _ _ hmove => exact hmove.keeps
  | refl texts => exact ⟨.refl texts, .refl _⟩
  | symm _ _ _ ih => exact ⟨ih.1.symm, ih.2.symm⟩
  | trans _ _ _ _ _ ih ih' => exact ⟨ih.1.trans ih'.1, ih.2.trans ih'.2⟩

theorem Rearranged.symm {source source' : String} (h : Rearranged source source') :
    Rearranged source' source :=
  Relation.EqvGen.symm _ _ h

theorem Rearranged.assembles {source source' : String} (h : Rearranged source source') {size : Nat}
    {p : Program} (hp : Assembles source size p) : Assembles source' size p := by
  obtain ⟨hperm, hagrees⟩ := keeps_of_eqvGen h
  obtain ⟨texts, ls, hreads, hcontents⟩ := hp
  obtain ⟨hread, rfl⟩ := hreads.eq_readings
  have hread' : ∀ t ∈ lines source'.toList, ∃ l, IsLine t l :=
    fun t ht => hread t (hperm.mem_iff.2 ht)
  exact ⟨_, _, hreads.of_agrees hread' hagrees, hagrees.contents hcontents⟩

/-- **Definitions stand anywhere.** A source text that is rearranged is a program exactly if it was
one before, and then the same program. -/
theorem assemble_rearranged {source source' : String} (h : Rearranged source source') (size : Nat)
    (p : Program) :
    Program.assemble source size = .ok p ↔ Program.assemble source' size = .ok p := by
  rw [assemble_eq_ok_iff, assemble_eq_ok_iff]
  exact ⟨h.assembles, h.symm.assembles⟩

/-- A constant that a datum uses, and that datum, which is no instruction before the label. -/
theorem assemble_rearranged_of_forward :
    Rearranged "CELL = 6\n:CELL:7\nBRZ END\nINC\nEND: STO CELL"
        "BRZ END\nINC\n:CELL:7\nEND: STO CELL\nCELL = 6" ∧
      Program.assemble "BRZ END\nINC\n:CELL:7\nEND: STO CELL\nCELL = 6" 8 =
        .ok ⟨[.brz 2, .accu .inc, .sto 6], [(6, 7)], [("CELL", 6), ("END", 2)]⟩ := by
  let brz := "BRZ END".toList
  let inc := "INC".toList
  let datum := ":CELL:7".toList
  let sto := "END: STO CELL".toList
  let cell := "CELL = 6".toList
  have hcell : Moved ([] ++ cell :: [datum, brz, inc, sto] ++ [])
      ([] ++ [datum, brz, inc, sto] ++ cell :: []) := .constant (by decide)
  have hdatum : Moved ([] ++ datum :: [brz, inc] ++ [sto, cell])
      ([] ++ [brz, inc] ++ datum :: [sto, cell]) := .data (by decide) (by decide)
  have hmoves : Rearranged "CELL = 6\n:CELL:7\nBRZ END\nINC\nEND: STO CELL"
      "BRZ END\nINC\n:CELL:7\nEND: STO CELL\nCELL = 6" :=
    .trans _ _ _ (.rel _ _ hcell) (.rel _ _ hdatum)
  exact ⟨hmoves, (assemble_rearranged hmoves 8 _).1 rfl⟩

end AccumulatorMachine.Assembly
