import AccumulatorMachine.Assembly.Symbols
import Mathlib.Data.List.Nodup

/-! # Chains of definitions

What an operand stands for, as a derivation from the definitions: a number stands for itself, a
label for its address, a constant for what its value stands for. `resolve?_eq_some_iff` says that
following the chain finds exactly that. The limit on its length cuts nothing off: the names on a
chain that ends are different (`Chain.nodup`), so there are at most as many as the table has.
-/

namespace AccumulatorMachine.Assembly.SymbolTable
set_option autoImplicit false

/-- `Chain t path o v`: from `o` one comes through the names of `path` to the number `v`. -/
inductive Chain (t : SymbolTable) : List String → Operand → Int → Prop
  | number (n : Int) : Chain t [] (.number n) n
  | label {s : String} {a : Nat} : t.find? s = some (.label a) → Chain t [s] (.name s) a
  | constant {s : String} {o : Operand} {path : List String} {v : Int} :
      t.find? s = some (.constant o) → Chain t path o v → Chain t (s :: path) (.name s) v

/-- `t.Denotes o v`: in the definitions of `t` the operand `o` stands for `v`. -/
def Denotes (t : SymbolTable) (o : Operand) (v : Int) : Prop := ∃ path, Chain t path o v

variable {t : SymbolTable} {path path' : List String} {o : Operand} {v v' : Int}

/-! ## A chain is determined by its start -/

theorem Chain.unique (h : Chain t path o v) (h' : Chain t path' o v') : path = path' ∧ v = v' := by
  induction h generalizing path' v' with
  | number n =>
    cases h'
    exact ⟨rfl, rfl⟩
  | label hs =>
    cases h' with
    | label hs' =>
      rw [hs] at hs'
      cases hs'
      exact ⟨rfl, rfl⟩
    | constant hs' =>
      rw [hs] at hs'
      cases hs'
  | constant hs _ ih =>
    cases h' with
    | label hs' =>
      rw [hs] at hs'
      cases hs'
    | constant hs' hc' =>
      rw [hs] at hs'
      cases hs'
      obtain ⟨rfl, rfl⟩ := ih hc'
      exact ⟨rfl, rfl⟩

/-- The rest of a chain from one of its names on is the chain of that name. -/
theorem Chain.from_mem (h : Chain t path o v) {s : String} (hs : s ∈ path) :
    ∃ rest, Chain t (s :: rest) (.name s) v ∧ s :: rest <:+ path := by
  induction h with
  | number => simp at hs
  | label hfind =>
    obtain rfl := List.mem_singleton.1 hs
    exact ⟨[], .label hfind, List.suffix_refl _⟩
  | constant hfind hc ih =>
    rcases List.mem_cons.1 hs with rfl | hmem
    · exact ⟨_, .constant hfind hc, List.suffix_refl _⟩
    · obtain ⟨rest, hrest, hsuffix⟩ := ih hmem
      exact ⟨rest, hrest, hsuffix.trans (List.suffix_cons _ _)⟩

theorem Chain.nodup (h : Chain t path o v) : path.Nodup := by
  induction h with
  | number => exact List.nodup_nil
  | label => exact List.nodup_singleton _
  | @constant s o path v hfind hc ih =>
    refine List.nodup_cons.2 ⟨fun hmem => ?_, ih⟩
    -- a name met again would have the whole chain as a proper part of itself
    obtain ⟨rest, hrest, hsuffix⟩ := hc.from_mem hmem
    obtain ⟨heq, -⟩ := hrest.unique (.constant hfind hc)
    have hlen := hsuffix.length_le
    rw [heq, List.length_cons] at hlen
    omega

theorem mem_keys_of_find? {s : String} {d : Definition} (h : t.find? s = some d) :
    s ∈ t.definitions.keys := by
  rw [Std.TreeMap.mem_keys, Std.TreeMap.mem_iff_isSome_getElem?]
  exact Option.isSome_of_mem h

theorem Chain.mem_keys (h : Chain t path o v) : ∀ s ∈ path, s ∈ t.definitions.keys := by
  induction h with
  | number => simp
  | label hfind =>
    intro s hs
    rw [List.mem_singleton.1 hs]
    exact mem_keys_of_find? hfind
  | constant hfind _ ih => exact List.forall_mem_cons.2 ⟨mem_keys_of_find? hfind, ih⟩

theorem Chain.length_le (h : Chain t path o v) : path.length ≤ t.size := by
  have hle := h.nodup.length_le_of_subset h.mem_keys
  rwa [Std.TreeMap.length_keys] at hle

/-! ## Following a chain -/

theorem Chain.follow?_eq (h : Chain t path o v) {limit : Nat} (hlimit : path.length < limit) :
    t.follow? limit o = some v := by
  induction h generalizing limit with
  | number n =>
    obtain ⟨limit, rfl⟩ := Nat.exists_eq_add_of_lt hlimit
    rfl
  | label hfind =>
    obtain ⟨limit, rfl⟩ := Nat.exists_eq_add_of_lt hlimit
    simp [follow?, hfind]
  | constant hfind _ ih =>
    cases limit with
    | zero => omega
    | succ limit =>
      rw [List.length_cons] at hlimit
      simp only [follow?, hfind]
      exact ih (by omega)

theorem denotes_of_follow? {limit : Nat} (h : t.follow? limit o = some v) : t.Denotes o v := by
  induction limit generalizing o with
  | zero => simp [follow?] at h
  | succ limit ih =>
    cases o with
    | number n =>
      obtain rfl : n = v := Option.some.inj h
      exact ⟨[], .number n⟩
    | name s =>
      cases hs : t.find? s with
      | none => simp [follow?, hs] at h
      | some d =>
        cases d with
        | label a =>
          simp only [follow?, hs, Option.some.injEq] at h
          subst h
          exact ⟨[s], .label hs⟩
        | constant o =>
          simp only [follow?, hs] at h
          obtain ⟨path, hpath⟩ := ih h
          exact ⟨s :: path, .constant hs hpath⟩

/-- An operand is resolved exactly to what it stands for. -/
theorem resolve?_eq_some_iff : t.resolve? o = some v ↔ t.Denotes o v := by
  refine ⟨denotes_of_follow?, ?_⟩
  rintro ⟨path, hpath⟩
  exact hpath.follow?_eq (Nat.lt_succ_of_le hpath.length_le)

theorem Denotes.unique (h : t.Denotes o v) (h' : t.Denotes o v') : v = v' := by
  obtain ⟨_, hpath⟩ := h
  obtain ⟨_, hpath'⟩ := h'
  exact (hpath.unique hpath').2

/-! ## The table of values -/

theorem mem_values_iff {s : String} : (s, v) ∈ t.values ↔ t.Denotes (.name s) v := by
  rw [values, List.mem_filterMap, ← resolve?_eq_some_iff]
  constructor
  · rintro ⟨s', -, hs'⟩
    obtain ⟨n, hn, heq⟩ := Option.map_eq_some_iff.1 hs'
    cases heq
    exact hn
  · intro h
    obtain ⟨path, hpath⟩ := resolve?_eq_some_iff.1 h
    have hmem : s ∈ t.definitions.keys := by
      cases hpath with
      | label hs => exact mem_keys_of_find? hs
      | constant hs => exact mem_keys_of_find? hs
    exact ⟨s, hmem, Option.map_eq_some_iff.2 ⟨v, h, rfl⟩⟩

theorem pairwise_values : t.values.Pairwise fun a b => a.1 < b.1 := by
  refine List.Pairwise.filterMap _ ?_ t.definitions.ordered_keys
  intro s s' hlt b hb b' hb'
  obtain ⟨n, -, rfl⟩ := Option.map_eq_some_iff.1 hb
  obtain ⟨n', -, rfl⟩ := Option.map_eq_some_iff.1 hb'
  exact compareOfLessAndEq_eq_lt.1 hlt

end AccumulatorMachine.Assembly.SymbolTable
