import AccumulatorMachine.Proofs.Assembly.FirstPass
import AccumulatorMachine.Registers
import Mathlib.Data.List.Sort
import Mathlib.Data.String.Basic

/-! # The second pass

The program of a draft has the contents of the lines that the draft describes. Operands resolve to
their values (`Describes.resolve?_eq_some_iff`), so a statement is placed exactly if it means
something, and by induction over the statements a run either places all of them
(`foldlM_addTo`) or ends at the first that means nothing (`foldlM_addTo_fault`).
-/

namespace AccumulatorMachine.Assembly
set_option autoImplicit false
open Text

/-! ## Numbers as words -/

theorem ofNat_and_addressMask (n : Nat) :
    UInt16.ofNat n &&& addressMask = UInt16.ofNat (n % 4096) := by
  apply UInt16.toNat_inj.1
  rw [Registers.toNat_and_addressMask, UInt16.toNat_ofNat', UInt16.toNat_ofNat']
  omega

theorem toNat_ofInt (v : Int) : ((UInt16.ofInt v).toNat : Int) = v % 65536 := by
  rw [UInt16.ofInt, UInt16.toNat_ofNat']
  omega

/-! ## Lists of which each element has a property, or one is the first without -/

theorem exists_forall₂ {α β : Type} {R : α → β → Prop} {xs : List α} (h : ∀ x ∈ xs, ∃ y, R x y) :
    ∃ ys, List.Forall₂ R xs ys := by
  induction xs with
  | nil => exact ⟨[], .nil⟩
  | cons x xs ih =>
    obtain ⟨y, hy⟩ := h x List.mem_cons_self
    obtain ⟨ys, hys⟩ := ih fun z hz => h z (List.mem_cons_of_mem x hz)
    exact ⟨y :: ys, .cons hy hys⟩

theorem exists_of_forall₂ {α β : Type} {R : α → β → Prop} {xs : List α} {ys : List β}
    (h : List.Forall₂ R xs ys) : ∀ x ∈ xs, ∃ y, R x y := by
  induction h with
  | nil => simp
  | cons hxy _ ih => exact List.forall_mem_cons.2 ⟨⟨_, hxy⟩, ih⟩

theorem forall_or_first {α : Type} (P : α → Prop) (xs : List α) :
    (∀ x ∈ xs, P x) ∨ ∃ before x after, xs = before ++ x :: after ∧ (∀ y ∈ before, P y) ∧ ¬P x := by
  induction xs with
  | nil => exact .inl (by simp)
  | cons x xs ih =>
    by_cases hx : P x
    · rcases ih with h | ⟨before, y, after, rfl, hbefore, hy⟩
      · exact .inl (List.forall_mem_cons.2 ⟨hx, h⟩)
      · exact .inr ⟨x :: before, y, after, rfl, List.forall_mem_cons.2 ⟨hx, hbefore⟩, hy⟩
    · exact .inr ⟨[], x, xs, rfl, by simp, hx⟩

namespace Draft.Describes
variable {d : Draft} {texts : List (List Char)} {ls : List Line}

/-! ## Operands -/

theorem denotes_iff (h : d.Describes texts ls) {o : Operand} {v : Int} :
    d.symbols.Denotes o v ↔ Value ls o v := by
  constructor
  · rintro ⟨path, hpath⟩
    induction hpath with
    | number n => exact .number n
    | label hs => exact .label ((h.symbols _ _).1 hs)
    | constant hs _ ih => exact .constant ((h.symbols _ _).1 hs) ih
  · intro hv
    induction hv with
    | number n => exact ⟨[], .number n⟩
    | label hs => exact ⟨[_], .label ((h.symbols _ _).2 hs)⟩
    | constant hs _ ih =>
      obtain ⟨path, hpath⟩ := ih
      exact ⟨_ :: path, .constant ((h.symbols _ _).2 hs) hpath⟩

theorem resolve?_eq_some_iff (h : d.Describes texts ls) {o : Operand} {v : Int} :
    d.symbols.resolve? o = some v ↔ Value ls o v := by
  rw [SymbolTable.resolve?_eq_some_iff, h.denotes_iff]

theorem value_unique (h : d.Describes texts ls) {o : Operand} {v v' : Int} (hv : Value ls o v)
    (hv' : Value ls o v') : v = v' :=
  (h.denotes_iff.2 hv).unique (h.denotes_iff.2 hv')

/-! ## Statements -/

theorem commandResolve?_eq_some_iff (h : d.Describes texts ls) {c : Command} {i : Instruction} :
    c.resolve? d.symbols = some i ↔ CommandMeans ls c i := by
  obtain ⟨k, _ | o⟩ := c
  · constructor
    · intro hi
      cases hi
      exact .bare
    · intro hi
      cases hi
      rfl
  · simp only [Command.resolve?]
    constructor
    · intro hi
      split at hi
      · next n hn =>
        cases hi
        rw [Instruction.make, ofNat_and_addressMask]
        exact .addressed (h.resolve?_eq_some_iff.1 hn)
      · cases hi
    · intro hi
      cases hi with
      | @addressed _ _ n hv =>
        have hn : d.symbols.resolve? o = some (.ofNat n) := h.resolve?_eq_some_iff.2 hv
        rw [hn]
        exact congrArg some (congrArg (Instruction.ofKind k) (ofNat_and_addressMask n))

theorem resolveData_eq_ok_iff (h : d.Describes texts ls) {size n : Nat} {text : List Char}
    {a v : Operand} {cell : Nat × Word} :
    resolveData d.symbols size n text a v = .ok cell ↔ DatumMeans ls size (a, v) cell := by
  unfold resolveData
  constructor
  · intro hcell
    split at hcell
    · next x y hx hy =>
      split at hcell
      · next hrange =>
        cases hcell
        have hx' : (x.toNat : Int) = x := Int.toNat_of_nonneg hrange.1
        refine ⟨?_, ?_, y, h.resolve?_eq_some_iff.1 hy, toNat_ofInt y⟩
        · rw [hx']
          exact h.resolve?_eq_some_iff.1 hx
        · exact Int.ofNat_lt.1 (hx' ▸ hrange.2)
      · cases hcell
    · cases hcell
  · obtain ⟨x, w⟩ := cell
    rintro ⟨hx, hlt, y, hy, hw⟩
    rw [h.resolve?_eq_some_iff.2 hx, h.resolve?_eq_some_iff.2 hy]
    have hrange : (0 : Int) ≤ x ∧ (x : Int) < size := ⟨Int.natCast_nonneg x, Int.ofNat_lt.2 hlt⟩
    have hword : UInt16.ofInt y = w := by
      apply UInt16.toNat_inj.1
      exact Int.ofNat.inj ((toNat_ofInt y).trans hw.symm)
    simp [hrange.2, hword]

theorem addTo_of_fault (h : d.Describes texts ls) {size : Nat} {q : Placed} {e : AssemblyError}
    (hq : Fault ls size q.line q.text q.statement e) (p : Program) :
    q.addTo d.symbols size p = .error e := by
  obtain ⟨n, text, s⟩ := q
  cases hq with
  | @command c hno =>
    have hnone : c.resolve? d.symbols = none := by
      rw [Option.eq_none_iff_forall_ne_some]
      exact fun i hi => hno ⟨i, h.commandResolve?_eq_some_iff.1 hi⟩
    simp [Placed.addTo, hnone]
  | @valueless a v hno =>
    have herror : resolveData d.symbols size n text a v =
        .error (.malformed n (String.ofList text)) := by
      unfold resolveData
      split
      · next x y hx hy =>
        exact absurd ⟨⟨x, h.resolve?_eq_some_iff.1 hx⟩, ⟨y, h.resolve?_eq_some_iff.1 hy⟩⟩ hno
      · rfl
    simp only [Placed.addTo, herror, bind, Except.bind]
  | @outside a v x y hx hy hrange =>
    have herror : resolveData d.symbols size n text a v =
        .error (.dataOutOfRange n (String.ofList text) x) := by
      rw [resolveData, h.resolve?_eq_some_iff.2 hx, h.resolve?_eq_some_iff.2 hy]
      exact if_neg hrange
    simp only [Placed.addTo, herror, bind, Except.bind]

end Draft.Describes

theorem exists_fault {ls : List Line} {size : Nat} {s : Statement} (h : ¬Meaningful ls size s)
    (n : Nat) (text : List Char) : ∃ e, Fault ls size n text s e := by
  cases s with
  | command c => exact ⟨_, .command h⟩
  | data a v =>
    by_cases hvalue : (∃ x, Value ls a x) ∧ ∃ y, Value ls v y
    · obtain ⟨⟨x, hx⟩, y, hy⟩ := hvalue
      refine ⟨_, .outside hx hy ?_⟩
      rintro ⟨h0, hlt⟩
      have hx' : (x.toNat : Int) = x := Int.toNat_of_nonneg h0
      refine h ⟨(x.toNat, UInt16.ofInt y), ?_, ?_, y, hy, toNat_ofInt y⟩
      · rw [hx']
        exact hx
      · exact Int.ofNat_lt.1 (hx' ▸ hlt)
    · exact ⟨_, .valueless hvalue⟩

/-! ## All statements -/

/-- Statements that mean something are an initial part of a program. -/
theorem exists_contents {ls : List Line} {size : Nat} {ss : List Statement} (hs : ∀ s ∈ ss, Meaningful ls size s) :
    (∃ is, List.Forall₂ (CommandMeans ls) (ss.filterMap Statement.command?) is) ∧
      ∃ cells, List.Forall₂ (DatumMeans ls size) (ss.filterMap Statement.datum?) cells := by
  constructor
  · refine exists_forall₂ fun c hc => ?_
    obtain ⟨s, hmem, hsc⟩ := List.mem_filterMap.1 hc
    cases s with
    | command c' =>
      cases hsc
      exact hs _ hmem
    | data => cases hsc
  · refine exists_forall₂ fun c hc => ?_
    obtain ⟨s, hmem, hsc⟩ := List.mem_filterMap.1 hc
    cases s with
    | command => cases hsc
    | data a v =>
      cases hsc
      exact hs _ hmem

namespace Draft.Describes
variable {d : Draft} {texts : List (List Char)} {ls : List Line} {size : Nat}

theorem foldlM_addTo (h : d.Describes texts ls) {ps : List Placed} {is : List Instruction}
    {cells : List (Nat × Word)}
    (hi : List.Forall₂ (CommandMeans ls)
      ((ps.map Placed.statement).filterMap Statement.command?) is)
    (hd : List.Forall₂ (DatumMeans ls size)
      ((ps.map Placed.statement).filterMap Statement.datum?) cells) (p : Program) :
    ps.foldlM (Placed.addTo d.symbols size) p =
      .ok { p with
        instructions := is.reverse ++ p.instructions
        data := cells.reverse ++ p.data } := by
  induction ps generalizing is cells p with
  | nil =>
    cases hi
    cases hd
    rfl
  | cons q ps ih =>
    obtain ⟨n, text, s⟩ := q
    rw [List.foldlM_cons]
    cases s with
    | command c =>
      obtain ⟨i, is, hc, his, rfl⟩ := List.forall₂_cons_left_iff.1 hi
      have hq : Placed.addTo d.symbols size p ⟨n, text, .command c⟩ =
          .ok { p with instructions := i :: p.instructions } := by
        simp [Placed.addTo, h.commandResolve?_eq_some_iff.2 hc]
      simp only [hq, bind, Except.bind]
      rw [ih his hd]
      simp
    | data a v =>
      obtain ⟨cell, cells, hc, hcells, rfl⟩ := List.forall₂_cons_left_iff.1 hd
      have hq : Placed.addTo d.symbols size p ⟨n, text, .data a v⟩ =
          .ok { p with data := cell :: p.data } := by
        simp only [Placed.addTo, h.resolveData_eq_ok_iff.2 hc, bind, Except.bind]
        rfl
      simp only [hq, bind, Except.bind]
      rw [ih hi hcells]
      simp

theorem foldlM_addTo_fault (h : d.Describes texts ls) {before after : List Placed} {q : Placed}
    {e : AssemblyError} (hbefore : ∀ r ∈ before, Meaningful ls size r.statement)
    (hq : Fault ls size q.line q.text q.statement e) (p : Program) :
    (before ++ q :: after).foldlM (Placed.addTo d.symbols size) p = .error e := by
  have hs : ∀ s ∈ before.map Placed.statement, Meaningful ls size s := by
    intro s hs
    obtain ⟨r, hr, rfl⟩ := List.mem_map.1 hs
    exact hbefore r hr
  obtain ⟨⟨is, his⟩, cells, hcells⟩ := exists_contents hs
  rw [List.foldlM_append, h.foldlM_addTo his hcells]
  simp only [List.foldlM_cons, bind, Except.bind, h.addTo_of_fault hq]

end Draft.Describes

end AccumulatorMachine.Assembly
