import AccumulatorMachine.Proofs.Assembly.Chain
import Mathlib.Data.Fintype.EquivFin
import Mathlib.Data.List.Duplicate
import Mathlib.Logic.Relation

/-! # Resolution

From an operand one goes from constant to constant along `Link`, and each operand has at most one
link. So there are three ways to go: to a number or a label (`Ends`), to a name without a definition
(`Undefined`), or round in a circle. `resolution_exact` says that resolving tells the first from
the other two whatever the table, and that the limit on the number of links never decides. A lesser
limit would, for there are chains through all the names of a table (`size_too_few`).
-/

namespace AccumulatorMachine.Assembly.SymbolTable
set_option autoImplicit false
open Relation

/-- One step along a chain, from a constant to what it is defined as. -/
inductive Link (t : SymbolTable) : Operand → Operand → Prop
  | constant {s : String} {o : Operand} : t.find? s = some (.constant o) → Link t (.name s) o

/-- The operand is a number, or a label with this address. -/
inductive Ends (t : SymbolTable) : Operand → Int → Prop
  | number (n : Int) : Ends t (.number n) n
  | label {s : String} {a : Nat} : t.find? s = some (.label a) → Ends t (.name s) a

/-- The operand is a name without a definition. -/
inductive Undefined (t : SymbolTable) : Operand → Prop
  | name {s : String} : t.find? s = none → Undefined t (.name s)

variable {t t' : SymbolTable} {path : List String} {o o' : Operand} {v : Int}

/-! ## Chains as links -/

theorem denotes_iff : t.Denotes o v ↔ ∃ o', ReflTransGen t.Link o o' ∧ t.Ends o' v := by
  constructor
  · rintro ⟨path, hpath⟩
    induction hpath with
    | number n => exact ⟨_, .refl, .number n⟩
    | label hs => exact ⟨_, .refl, .label hs⟩
    | constant hs _ ih =>
      obtain ⟨o', ho', hv⟩ := ih
      exact ⟨o', .head (.constant hs) ho', hv⟩
  · rintro ⟨o', ho', hv⟩
    induction ho' using ReflTransGen.head_induction_on with
    | refl =>
      cases hv with
      | number => exact ⟨_, .number _⟩
      | label hs => exact ⟨_, .label hs⟩
    | head hlink _ ih =>
      obtain ⟨path, hpath⟩ := ih
      cases hlink with
      | constant hs => exact ⟨_, .constant hs hpath⟩

/-- A link leads to the rest of the chain, which is shorter. -/
theorem Chain.of_link (h : Chain t path o v) (hlink : t.Link o o') :
    ∃ rest, Chain t rest o' v ∧ rest.length < path.length := by
  cases hlink with
  | constant hs =>
    cases h with
    | label hs' =>
      rw [hs] at hs'
      cases hs'
    | constant hs' hc =>
      rw [hs] at hs'
      cases hs'
      exact ⟨_, hc, Nat.lt_succ_self _⟩

theorem Chain.of_transGen (h : Chain t path o v) (hlinks : TransGen t.Link o o') :
    ∃ rest, Chain t rest o' v ∧ rest.length < path.length := by
  induction hlinks with
  | single hlink => exact h.of_link hlink
  | tail _ hlink ih =>
    obtain ⟨rest, hrest, hlt⟩ := ih
    obtain ⟨rest', hrest', hlt'⟩ := hrest.of_link hlink
    exact ⟨rest', hrest', hlt'.trans hlt⟩

theorem Denotes.of_links (h : t.Denotes o v) (hlinks : ReflTransGen t.Link o o') :
    t.Denotes o' v := by
  obtain rfl | hlinks := reflTransGen_iff_eq_or_transGen.1 hlinks
  · exact h
  · obtain ⟨path, hpath⟩ := h
    obtain ⟨rest, hrest, -⟩ := hpath.of_transGen hlinks
    exact ⟨rest, hrest⟩

theorem Denotes.not_undefined (h : t.Denotes o v) : ¬t.Undefined o := by
  rintro ⟨hs⟩
  obtain ⟨path, hpath⟩ := h
  cases hpath with
  | label hs' =>
    rw [hs] at hs'
    cases hs'
  | constant hs' =>
    rw [hs] at hs'
    cases hs'

/-- What stands for a number is on no circle: its chain would be shorter than itself. -/
theorem Denotes.not_circular (h : t.Denotes o v) : ¬TransGen t.Link o o := by
  intro hlinks
  obtain ⟨path, hpath⟩ := h
  obtain ⟨rest, hrest, hlt⟩ := hpath.of_transGen hlinks
  rw [(hpath.unique hrest).1] at hlt
  exact Nat.lt_irrefl _ hlt

/-! ## Operands without a value -/

/-- Where following a chain fails, and not for want of a definition, the chain goes on for as many
names as the limit allows. -/
theorem exists_walk {limit : Nat} (h : t.follow? limit o = none)
    (hdefined : ∀ o', ReflTransGen t.Link o o' → ¬t.Undefined o') :
    ∃ path : List String, path.length = limit ∧
      path.Pairwise (fun s s' => TransGen t.Link (.name s) (.name s')) ∧
      ∀ s ∈ path, s ∈ t.definitions.keys ∧ ReflTransGen t.Link o (.name s) := by
  induction limit generalizing o with
  | zero => exact ⟨[], rfl, .nil, by simp⟩
  | succ limit ih =>
    cases o with
    | number n => simp [follow?] at h
    | name s =>
      cases hs : t.find? s with
      | none => exact absurd (.name hs) (hdefined _ .refl)
      | some d =>
        cases d with
        | label a => simp [follow?, hs] at h
        | constant o' =>
          have hlink : t.Link (.name s) o' := .constant hs
          simp only [follow?, hs] at h
          obtain ⟨path, hlength, hpairwise, hpath⟩ :=
            ih h fun o'' ho'' => hdefined o'' (.head hlink ho'')
          refine ⟨s :: path, congrArg Nat.succ hlength, ?_, ?_⟩
          · exact .cons (fun s' hs' => .head' hlink (hpath s' hs').2) hpairwise
          · refine List.forall_mem_cons.2 ⟨⟨mem_keys_of_find? hs, .refl⟩, fun s' hs' => ?_⟩
            exact ⟨(hpath s' hs').1, .head hlink (hpath s' hs').2⟩

/-- A walk through more names than there are meets one of them twice. -/
theorem exists_circle (h : t.resolve? o = none)
    (hdefined : ∀ o', ReflTransGen t.Link o o' → ¬t.Undefined o') :
    ∃ o', ReflTransGen t.Link o o' ∧ TransGen t.Link o' o' := by
  obtain ⟨path, hlength, hpairwise, hpath⟩ := exists_walk h hdefined
  have hrepeats : ¬path.Nodup := by
    intro hnodup
    have hle := hnodup.length_le_of_subset fun s hs => (hpath s hs).1
    rw [Std.TreeMap.length_keys, hlength] at hle
    exact Nat.not_succ_le_self _ hle
  obtain ⟨s, hs⟩ := List.exists_duplicate_iff_not_nodup.2 hrepeats
  have htwice := hpairwise.sublist (List.duplicate_iff_sublist.1 hs)
  exact ⟨.name s, (hpath s hs.mem).2, List.rel_of_pairwise_cons htwice (List.mem_singleton_self s)⟩

theorem resolve?_eq_none_iff :
    t.resolve? o = none ↔ (∃ o', ReflTransGen t.Link o o' ∧ t.Undefined o') ∨
      ∃ o', ReflTransGen t.Link o o' ∧ TransGen t.Link o' o' := by
  constructor
  · intro h
    by_cases hdefined : ∃ o', ReflTransGen t.Link o o' ∧ t.Undefined o'
    · exact .inl hdefined
    · exact .inr (exists_circle h fun o' ho' hundefined => hdefined ⟨o', ho', hundefined⟩)
  · intro h
    refine Option.eq_none_iff_forall_ne_some.2 fun v hv => ?_
    have hdenotes := resolve?_eq_some_iff.1 hv
    obtain ⟨o', ho', hundefined⟩ | ⟨o', ho', hcircle⟩ := h
    · exact (hdenotes.of_links ho').not_undefined hundefined
    · exact (hdenotes.of_links ho').not_circular hcircle

/-! ## Limits -/

/-- A limit above the size of the table makes no difference. -/
theorem follow?_of_size_lt {limit : Nat} (h : t.size < limit) : t.follow? limit o = t.resolve? o := by
  refine Option.ext fun v => ?_
  rw [resolve?_eq_some_iff]
  refine ⟨denotes_of_follow?, ?_⟩
  rintro ⟨path, hpath⟩
  exact hpath.follow?_eq (hpath.length_le.trans_lt h)

/-- A chain of constants has one link for each of its names, and needs one look more. -/
theorem Chain.follow?_length (h : Chain t path o v)
    (hconstants : ∀ s ∈ path, ∀ a, t.find? s ≠ some (.label a)) :
    t.follow? path.length o = none := by
  induction h with
  | number n => rfl
  | label hs => exact absurd hs (hconstants _ List.mem_cons_self _)
  | constant hs _ ih =>
    rw [List.length_cons, follow?]
    simp only [hs]
    exact ih fun s' hs' => hconstants s' (List.mem_cons_of_mem _ hs')

/-! ## Tables -/

/-- Chains use the definitions of a table, and nothing else of it. -/
theorem Chain.mono (h : Chain t path o v)
    (hle : ∀ s d, t.find? s = some d → t'.find? s = some d) : Chain t' path o v := by
  induction h with
  | number n => exact .number n
  | label hs => exact .label (hle _ _ hs)
  | constant hs _ ih => exact .constant (hle _ _ hs) ih

theorem resolve?_congr (h : ∀ s, t'.find? s = t.find? s) : t'.resolve? o = t.resolve? o := by
  refine Option.ext fun v => ?_
  rw [resolve?_eq_some_iff, resolve?_eq_some_iff]
  constructor
  · rintro ⟨path, hpath⟩
    exact ⟨path, hpath.mono fun s d hs => (h s).symm.trans hs⟩
  · rintro ⟨path, hpath⟩
    exact ⟨path, hpath.mono fun s d hs => (h s).trans hs⟩

theorem size_define? {s : String} {d : Definition} (h : t.define? s d = some t') :
    t'.size = t.size + 1 := by
  have hnone : t.find? s = none := define?_isSome_iff.1 (by rw [h]; rfl)
  have hs : ¬t.definitions.contains s = true := by
    rw [Std.TreeMap.contains_eq_isSome_getElem?]
    exact fun hsome => absurd hnone (Option.isSome_iff_ne_none.1 hsome)
  simp only [define?, hnone, Option.some.injEq] at h
  subst h
  rw [size, Std.TreeMap.size_insert, if_neg hs]
  rfl

/-- There are chains through all the names of a table, for every number of names. -/
theorem exists_full_chain (n : Nat) : ∃ (t : SymbolTable) (path : List String) (o : Operand),
    t.size = n ∧ path.length = n ∧ Chain t path o 0 ∧
      ∀ s ∈ path, ∀ a, t.find? s ≠ some (.label a) := by
  induction n with
  | zero => exact ⟨{}, [], .number 0, rfl, rfl, .number 0, by simp⟩
  | succ n ih =>
    obtain ⟨t, path, o, hsize, hlength, hpath, hconstants⟩ := ih
    obtain ⟨s, hs⟩ := Infinite.exists_notMem_finset t.definitions.keys.toFinset
    rw [List.mem_toFinset] at hs
    have hnone : t.find? s = none := by
      by_contra hsome
      obtain ⟨d, hd⟩ := Option.ne_none_iff_exists'.1 hsome
      exact hs (mem_keys_of_find? hd)
    obtain ⟨t', ht'⟩ := Option.isSome_iff_exists.1
      ((define?_isSome_iff (d := .constant o)).2 hnone)
    have hfind (s' : String) := find?_define? ht' s'
    have hkept (s' : String) (hs' : s' ≠ s) : t'.find? s' = t.find? s' := by
      rw [hfind, if_neg hs']
    have hlonger : Chain t' (s :: path) (.name s) 0 := by
      refine .constant ((hfind s).trans (if_pos rfl)) (hpath.mono fun s' d hd => ?_)
      rw [hkept s' (by rintro rfl; rw [hnone] at hd; cases hd)]
      exact hd
    refine ⟨t', s :: path, .name s, ?_, congrArg Nat.succ hlength, hlonger, ?_⟩
    · rw [size_define? ht', hsize]
    · intro s' hs' a
      by_cases heq : s' = s
      · rw [hfind, if_pos heq]
        simp
      · rw [hkept s' heq]
        exact hconstants s' (List.mem_of_ne_of_mem heq hs') a

/-- One look fewer than resolving allows would be too few, in tables of every size. -/
theorem size_too_few (n : Nat) : ∃ (t : SymbolTable) (o : Operand) (v : Int),
    t.size = n ∧ t.resolve? o = some v ∧ t.follow? t.size o = none := by
  obtain ⟨t, path, o, hsize, hlength, hpath, hconstants⟩ := exists_full_chain n
  refine ⟨t, o, 0, hsize, resolve?_eq_some_iff.2 ⟨path, hpath⟩, ?_⟩
  rw [hsize, ← hlength]
  exact hpath.follow?_length hconstants

/-! ## Exactness -/

/-- **Resolving is exact.** An operand resolves to a number just if constants lead from it to that
number, or to a label with that address, and does not resolve just if they lead to a name without a
definition or into a circle. No greater limit finds more, and tables with the same definitions
resolve alike. -/
theorem resolution_exact (t : SymbolTable) (o : Operand) :
    (∀ v, t.resolve? o = some v ↔ ∃ o', ReflTransGen t.Link o o' ∧ t.Ends o' v) ∧
    (t.resolve? o = none ↔ (∃ o', ReflTransGen t.Link o o' ∧ t.Undefined o') ∨
      ∃ o', ReflTransGen t.Link o o' ∧ TransGen t.Link o' o') ∧
    (∀ limit, t.size < limit → t.follow? limit o = t.resolve? o) ∧
    ∀ t' : SymbolTable, (∀ s, t'.find? s = t.find? s) → t'.resolve? o = t.resolve? o := by
  refine ⟨fun v => ?_, resolve?_eq_none_iff, fun limit => follow?_of_size_lt,
    fun t' => resolve?_congr⟩
  rw [resolve?_eq_some_iff, denotes_iff]

end AccumulatorMachine.Assembly.SymbolTable
