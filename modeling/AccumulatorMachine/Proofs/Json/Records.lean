import AccumulatorMachine.Json.Field
import Mathlib.Data.List.Nodup

/-! # The forms of a record

The members of a record may stand in any order, and among others that the record does not have; or
their values stand alone, in an array (`IsForm`). The fields are the same in all of these forms
(`fields?_of_isForm`).
-/

namespace AccumulatorMachine.Json
set_option autoImplicit false

/-! ## Members -/

section
variable {members members' others : List (Option String × Json)} {names : List String}

theorem occurrences_perm (h : members.Perm members') (name : String) :
    occurrences members name = occurrences members' name :=
  h.countP_eq _

theorem occurrences_cons (member : Option String × Json) (members : List (Option String × Json))
    (name : String) : occurrences (member :: members) name =
      occurrences members name + if member.1 == some name then 1 else 0 :=
  List.countP_cons

section
variable {name : String} (h : ∀ member ∈ members, member.1 ≠ some name)
include h

theorem lookup_of_absent : members.lookup (some name) = none := by
  refine List.lookup_eq_none_iff.2 fun member hmember => ?_
  simpa using Ne.symm (h member hmember)

theorem occurrences_of_absent : occurrences members name = 0 := by
  refine List.countP_eq_zero.2 fun member hmember => ?_
  simpa using h member hmember

end

/-- The order of the members makes no difference to one that stands once at most. -/
theorem lookup_perm (h : members.Perm members') {name : String}
    (hcount : occurrences members name ≤ 1) :
    members.lookup (some name) = members'.lookup (some name) := by
  induction h with
  | nil => rfl
  | cons member h ih =>
    rw [occurrences_cons] at hcount
    rw [List.lookup_cons, List.lookup_cons, ih (by omega)]
  | swap a b members =>
    obtain ⟨key, value⟩ := a
    obtain ⟨key', value'⟩ := b
    rw [occurrences_cons, occurrences_cons] at hcount
    by_cases hkey : key = some name
    · have hkey' : (some name == key') = false := by
        refine beq_eq_false_iff_ne.2 fun hname => ?_
        simp [hkey, ← hname] at hcount
      simp [List.lookup_cons, hkey']
    · have hkey' : (some name == key) = false := beq_eq_false_iff_ne.2 (Ne.symm hkey)
      simp [List.lookup_cons, hkey']
  | trans h h' ih ih' =>
    rw [ih hcount, ih' (occurrences_perm h name ▸ hcount)]

/-- Nor does it make one to the fields of an object. -/
theorem fields?_perm (h : members.Perm members') (names : List String) :
    fields? names (.object members) = fields? names (.object members') := by
  have hall : (members.all fun member => member.1.isSome) =
      members'.all fun member => member.1.isSome := h.all_eq
  have hcount : (names.all fun name => decide (occurrences members name ≤ 1)) =
      names.all fun name => decide (occurrences members' name ≤ 1) := by
    simp only [occurrences_perm h]
  rw [fields?, fields?, hall, hcount]
  split
  · next honce =>
    have hlookup : ∀ name ∈ names, members.lookup (some name) = members'.lookup (some name) := by
      intro name hname
      have hle := List.all_eq_true.1 (Bool.and_eq_true_iff.1 honce).2 name hname
      rw [← occurrences_perm h] at hle
      exact lookup_perm h (of_decide_eq_true hle)
    rw [List.map_congr_left hlookup]
  · rfl

/-- Members with other names make no difference, as long as these are texts. -/
theorem fields?_append
    (h : ∀ other ∈ others, other.1.isSome ∧ ∀ name ∈ names, other.1 ≠ some name) :
    fields? names (.object (members ++ others)) = fields? names (.object members) := by
  have hall : (others.all fun member => member.1.isSome) = true :=
    List.all_eq_true.2 fun other hother => (h other hother).1
  have habsent (name : String) (hname : name ∈ names) : ∀ other ∈ others, other.1 ≠ some name :=
    fun other hother => (h other hother).2 name hname
  have hcount : ∀ name ∈ names,
      occurrences (members ++ others) name = occurrences members name := by
    intro name hname
    have hothers := occurrences_of_absent (habsent name hname)
    rw [occurrences] at hothers ⊢
    rw [List.countP_append, hothers, occurrences, Nat.add_zero]
  have honce : (names.all fun name => decide (occurrences (members ++ others) name ≤ 1)) =
      names.all fun name => decide (occurrences members name ≤ 1) := by
    simp +contextual only [List.all_eq, hcount]
  rw [fields?, fields?, List.all_append, hall, Bool.and_true, honce]
  have hlookup : ∀ name ∈ names,
      (members ++ others).lookup (some name) = members.lookup (some name) := by
    intro name hname
    rw [List.lookup_append, lookup_of_absent (habsent name hname), Option.or_none]
  rw [List.map_congr_left hlookup]

end

/-! ## Forms -/

/-- The forms of a record: its members in any order and among others that it does not have, and its
values in their order. -/
inductive IsForm : Json → Json → Prop
  | object {fields others members : List (String × Json)}
      (hothers : ∀ other ∈ others, other.1 ∉ fields.map Prod.fst)
      (hmembers : members.Perm (fields ++ others)) : IsForm (record fields) (record members)
  | array (fields : List (String × Json)) :
      IsForm (record fields) (.array (fields.map Prod.snd))

theorem record_injective : Function.Injective record := by
  intro fields fields' h
  refine List.map_injective_iff.2 (fun field field' hfield => ?_) (Json.object.inj h)
  simpa [Prod.ext_iff] using hfield

section
variable {fields : List (String × Json)} (hnames : (fields.map Prod.fst).Nodup)
include hnames

theorem lookup_record {field : String × Json} (hfield : field ∈ fields) :
    (fields.map fun field => (some field.1, field.2)).lookup (some field.1) = some field.2 := by
  induction fields with
  | nil => cases hfield
  | cons first fields ih =>
    obtain ⟨hfirst, hrest⟩ := List.nodup_cons.1 hnames
    obtain rfl | hmem := List.mem_cons.1 hfield
    · exact List.lookup_cons_self
    · have hne : (some field.1 == some first.1) = false := by
        refine beq_eq_false_iff_ne.2 fun heq => hfirst ?_
        rw [← Option.some.inj heq]
        exact List.mem_map_of_mem hmem
      rw [List.map_cons, List.lookup_cons, hne]
      exact ih hrest hmem

theorem fields?_record :
    fields? (fields.map Prod.fst) (record fields) = some (fields.map fun field => some field.2) := by
  have htexts : ((fields.map fun field => (some field.1, field.2)).all
      fun member => member.1.isSome) = true := by
    simp
  have honce : ((fields.map Prod.fst).all fun name =>
      decide (occurrences (fields.map fun field => (some field.1, field.2)) name ≤ 1)) = true := by
    refine List.all_eq_true.2 fun name _ => decide_eq_true ?_
    have hcount := List.nodup_iff_count_le_one.1 hnames name
    rw [List.count, List.countP_map] at hcount
    simpa [occurrences, List.countP_map, Function.comp_def] using hcount
  rw [record, fields?, htexts, honce]
  rw [Bool.and_self, if_pos rfl, List.map_map]
  exact congrArg some (List.map_congr_left fun field hfield => lookup_record hnames hfield)

/-- The fields are the same in all forms of a record. -/
theorem fields?_of_isForm {j : Json} (h : IsForm (record fields) j) :
    fields? (fields.map Prod.fst) j = some (fields.map fun field => some field.2) := by
  generalize hj : record fields = whole at h
  cases h with
  | @object fields' others members hothers hmembers =>
    cases record_injective hj
    rw [record, fields?_perm (hmembers.map _), List.map_append, fields?_append]
    · exact fields?_record hnames
    · intro member hmember
      obtain ⟨other, hother, rfl⟩ := List.mem_map.1 hmember
      exact ⟨rfl, fun name hname heq => hothers other hother (Option.some.inj heq ▸ hname)⟩
  | array =>
    cases record_injective hj
    simp [fields?]

theorem wholeFields?_of_isForm {j : Json} (h : IsForm (record fields) j) :
    wholeFields? (fields.map Prod.fst) j = some (fields.map fun field => some field.2) := by
  generalize hj : record fields = whole at h
  cases h with
  | object hothers hmembers =>
    cases record_injective hj
    exact fields?_of_isForm hnames (.object hothers hmembers)
  | array =>
    cases record_injective hj
    simp [wholeFields?]

end

/-! ## Missing fields -/

/-- A field that the first value does not have, and the second has with the value of `fields`: a
member of an object, or the item after the last one of an array. -/
inductive Omits (fields : List (String × Json)) : Json → Json → Prop
  | member {field : String × Json} {members members' : List (Option String × Json)}
      (hfield : field ∈ fields) (habsent : ∀ member ∈ members, member.1 ≠ some field.1)
      (hmembers : members'.Perm ((some field.1, field.2) :: members)) :
      Omits fields (.object members) (.object members')
  | item {items : List Json} {field : String × Json} (hfield : fields[items.length]? = some field) :
      Omits fields (.array items) (.array (items ++ [field.2]))

theorem fields?_cons {names : List String} {name : String} {value : Json}
    {members : List (Option String × Json)} (h : ∀ member ∈ members, member.1 ≠ some name) :
    fields? names (.object ((some name, value) :: members)) =
      (fields? names (.object members)).map fun _ =>
        names.map fun other => if other = name then some value else members.lookup (some other) := by
  have hnone : occurrences members name = 0 := occurrences_of_absent h
  have hcount (other : String) :
      occurrences ((some name, value) :: members) other ≤ 1 ↔ occurrences members other ≤ 1 := by
    rw [occurrences_cons]
    by_cases hname : other = name
    · simp [hname, hnone]
    · simp [Ne.symm hname]
  have hlookup (other : String) : ((some name, value) :: members).lookup (some other) =
      if other = name then some value else members.lookup (some other) := by
    by_cases hname : other = name
    · simp [hname]
    · have hname' : (some other == some name) = false := by simpa using hname
      simp [List.lookup_cons, hname', hname]
  simp only [fields?, List.all_cons, Option.isSome_some, Bool.true_and, hcount, hlookup]
  split <;> rfl

end AccumulatorMachine.Json
