import AccumulatorMachine.Proofs.Assembly.SecondPass

/-! # Assembly is exact

The two passes together give a program exactly if the source text is one, and that program
(`assemble_eq_ok_iff`); and they refuse a source text exactly for the reason that there is
(`assemble_eq_error_iff`).
-/

namespace AccumulatorMachine.Assembly
set_option autoImplicit false
open Text

/-! ## Statements and their lines -/

theorem map_statement_placed {texts : List (List Char)} {ls : List Line}
    (h : texts.length = ls.length) (n : Nat) :
    (placed n texts ls).map Placed.statement = statements ls := by
  induction ls generalizing n texts with
  | nil =>
    rw [List.length_eq_zero_iff.1 h]
    rfl
  | cons l ls ih =>
    cases texts with
    | nil => simp at h
    | cons text texts =>
      rw [placed, List.map_append, ih (Nat.succ.inj (by simpa using h)), statements, statements]
      cases hs : l.statement? <;> simp [hs]

/-- Where a statement stands in the list of all, there its line stands in the source text. -/
theorem exists_line_of_placed {texts : List (List Char)} {ls : List Line}
    (h : texts.length = ls.length) {n : Nat} {before after : List Placed} {q : Placed}
    (hq : placed n texts ls = before ++ q :: after) :
    ∃ tb text ta first l rest, texts = tb ++ text :: ta ∧ ls = first ++ l :: rest ∧
      tb.length = first.length ∧ l.statement? = some q.statement ∧ before = placed n tb first ∧
      q.line = n + tb.length ∧ q.text = text := by
  induction ls generalizing n texts before with
  | nil =>
    rw [List.length_eq_zero_iff.1 h] at hq
    simp [placed] at hq
  | cons l ls ih =>
    cases texts with
    | nil => simp at h
    | cons text texts =>
      have hlen : texts.length = ls.length := Nat.succ.inj (by simpa using h)
      -- the statement is that of the first line, or one of a later line
      have hlater {before' : List Placed} (hq' : placed (n + 1) texts ls = before' ++ q :: after)
          (hbefore : before = (l.statement?.map fun s => ⟨n, text, s⟩).toList ++ before') :
          ∃ tb text' ta first l' rest, text :: texts = tb ++ text' :: ta ∧
            l :: ls = first ++ l' :: rest ∧ tb.length = first.length ∧
            l'.statement? = some q.statement ∧ before = placed n tb first ∧
            q.line = n + tb.length ∧ q.text = text' := by
        obtain ⟨tb, text', ta, first, l', rest, rfl, rfl, hlen', hs, rfl, hline, htext⟩ :=
          ih hlen hq'
        refine ⟨text :: tb, text', ta, l :: first, l', rest, rfl, rfl, by simp [hlen'], hs, hbefore,
          ?_, htext⟩
        rw [hline, List.length_cons]
        omega
      rw [placed] at hq
      cases hs : l.statement? with
      | none =>
        simp only [hs, Option.map_none, Option.toList_none, List.nil_append] at hq hlater
        exact hlater hq rfl
      | some s =>
        simp only [hs, Option.map_some, Option.toList_some, List.cons_append, List.nil_append]
          at hq hlater
        cases before with
        | nil =>
          rw [List.nil_append] at hq
          obtain ⟨rfl, -⟩ := List.cons.inj hq
          exact ⟨[], text, texts, [], l, ls, rfl, rfl, rfl, hs, rfl, rfl, rfl⟩
        | cons r before =>
          obtain ⟨rfl, hq'⟩ := List.cons.inj hq
          exact hlater hq' rfl

/-! ## The program of a draft -/

namespace Draft.Describes
variable {d : Draft} {texts : List (List Char)} {ls : List Line} {size : Nat}

theorem program_eq (h : d.Describes texts ls) (size : Nat) :
    d.program size =
      if room size < (commands ls).length then .error (.tooLarge (commands ls).length (room size))
      else
        ((placed 1 texts ls).foldlM (Placed.addTo d.symbols size) {}).map fun p =>
          { p with
            instructions := p.instructions.reverse
            data := p.data.reverse
            symbols := d.symbols.values } := by
  have hroom : min size fullSize = room size := rfl
  simp only [program, h.size, h.statements, hroom]
  by_cases hlen : room size < (commands ls).length
  · rw [if_pos hlen, if_pos hlen]
    rfl
  · rw [if_neg hlen, if_neg hlen]
    cases (placed 1 texts ls).foldlM (Placed.addTo d.symbols size) {} <;> rfl

theorem program_of_length (h : d.Describes texts ls) (hlen : room size < (commands ls).length) :
    d.program size = .error (.tooLarge (commands ls).length (room size)) := by
  rw [h.program_eq, if_pos hlen]

theorem program_of_meaning (h : d.Describes texts ls) (hlen : (commands ls).length ≤ room size)
    {is : List Instruction} {cells : List (Nat × Word)}
    (hi : List.Forall₂ (CommandMeans ls) (commands ls) is)
    (hd : List.Forall₂ (DatumMeans ls size) (data ls) cells) :
    d.program size = .ok ⟨is, cells, d.symbols.values⟩ := by
  have hmap := map_statement_placed h.lines.length_eq 1
  rw [commands, ← hmap] at hi
  rw [data, ← hmap] at hd
  rw [h.program_eq, if_neg (Nat.not_lt.2 hlen), h.foldlM_addTo hi hd]
  simp [Except.map]

theorem contents (h : d.Describes texts ls) (hlen : (commands ls).length ≤ room size)
    {is : List Instruction} {cells : List (Nat × Word)}
    (hi : List.Forall₂ (CommandMeans ls) (commands ls) is)
    (hd : List.Forall₂ (DatumMeans ls size) (data ls) cells) :
    Contents ls size ⟨is, cells, d.symbols.values⟩ where
  length_le := hlen
  instructions := hi
  data := hd
  symbols s v := by rw [SymbolTable.mem_values_iff, h.denotes_iff]
  sorted := SymbolTable.pairwise_values

theorem symbols_eq (h : d.Describes texts ls) {p : Program} (hp : Contents ls size p) :
    p.symbols = d.symbols.values := by
  have : Std.Antisymm fun a b : String × Int => a.1 < b.1 :=
    ⟨fun _ _ hlt hlt' => absurd hlt' (lt_asymm hlt)⟩
  have : Std.Irrefl fun a b : String × Int => a.1 < b.1 := ⟨fun a => lt_irrefl a.1⟩
  refine hp.sorted.eq_of_mem_iff SymbolTable.pairwise_values ?_
  rintro ⟨s, v⟩
  rw [hp.symbols, SymbolTable.mem_values_iff, h.denotes_iff]

theorem program_of_contents (h : d.Describes texts ls) {p : Program} (hp : Contents ls size p) :
    d.program size = .ok p := by
  rw [h.program_of_meaning hp.length_le hp.instructions hp.data, ← h.symbols_eq hp]

end Draft.Describes

theorem program_of_fault {d : Draft} {size : Nat} {before after : List (List Char)} {text : List Char}
    {first rest : List Line} {l : Line} {s : Statement} {e : AssemblyError}
    (h : d.Describes (before ++ text :: after) (first ++ l :: rest))
    (hbefore : before.length = first.length)
    (hlen : (commands (first ++ l :: rest)).length ≤ room size)
    (hfirst : ∀ s' ∈ statements first, Meaningful (first ++ l :: rest) size s')
    (hs : l.statement? = some s)
    (hfault : Fault (first ++ l :: rest) size (before.length + 1) text s e) :
    d.program size = .error e := by
  have hplaced : placed 1 (before ++ text :: after) (first ++ l :: rest) =
      placed 1 before first ++ ⟨before.length + 1, text, s⟩ ::
        placed (before.length + 2) after rest := by
    rw [placed_append hbefore, placed, hs, Nat.add_comm 1]
    rfl
  have hmeaning : ∀ r ∈ placed 1 before first,
      Meaningful (first ++ l :: rest) size r.statement := by
    intro r hr
    apply hfirst
    rw [← map_statement_placed hbefore 1]
    exact List.mem_map_of_mem hr
  rw [h.program_eq, if_neg (Nat.not_lt.2 hlen), hplaced, h.foldlM_addTo_fault hmeaning hfault]
  rfl

/-! ## Whole source texts -/

theorem assemble_of_draft {source : String} {d : Draft} (hd : Draft.ofSource source = .ok d)
    (size : Nat) : Program.assemble source size = d.program size := by
  simp only [Program.assemble, hd, bind, Except.bind]

theorem assemble_of_misfit {source : String} {e : AssemblyError}
    (hd : Draft.ofSource source = .error e) (size : Nat) :
    Program.assemble source size = .error e := by
  simp only [Program.assemble, hd, bind, Except.bind]

/-- A source text has a meaning, or there is a reason why it has none. -/
theorem assembles_or_refuses (source : String) (size : Nat) :
    (∃ p, Assembles source size p) ∨ ∃ e, Refuses source size e := by
  have hsplits : Splits source.toList (lines source.toList) := splits_iff.2 rfl
  rcases reads_or_misfit (lines source.toList) with
    ⟨ls, hlines, hnodup⟩ | ⟨before, text, after, ls, htexts, hlines, hnodup, hm⟩
  · have hreads : Reads source (lines source.toList) ls := ⟨hsplits, hlines, hnodup⟩
    by_cases hlen : (commands ls).length ≤ room size
    · have hlength : (lines source.toList).length = ls.length := hlines.length_eq
      rcases forall_or_first (fun q => Meaningful ls size q.statement)
          (placed 1 (lines source.toList) ls) with hall | ⟨before, q, after, hq, hbefore, hno⟩
      · have hs : ∀ s ∈ statements ls, Meaningful ls size s := by
          intro s hs
          rw [← map_statement_placed hlength 1] at hs
          obtain ⟨q, hq, rfl⟩ := List.mem_map.1 hs
          exact hall q hq
        obtain ⟨⟨is, his⟩, cells, hcells⟩ := exists_contents hs
        obtain ⟨d, -, h⟩ := Draft.exists_draft hreads
        exact .inl ⟨_, _, ls, hreads, h.contents hlen his hcells⟩
      · obtain ⟨tb, text, ta, first, l, rest, htexts, rfl, hlen', hs, rfl, hline, htext⟩ :=
          exists_line_of_placed hlength hq
        obtain ⟨e, he⟩ := exists_fault hno (tb.length + 1) text
        refine .inr ⟨e, .statement (htexts ▸ hreads) hlen' hlen ?_ hs he⟩
        intro s' hs'
        rw [← map_statement_placed hlen' 1] at hs'
        obtain ⟨r, hr, rfl⟩ := List.mem_map.1 hs'
        exact hbefore r hr
    · exact .inr ⟨_, .length hreads (Nat.not_le.1 hlen)⟩
  · exact .inr ⟨_, .line (htexts ▸ hsplits) hlines hnodup hm⟩

theorem assemble_of_assembles {source : String} {size : Nat} {p : Program}
    (h : Assembles source size p) : Program.assemble source size = .ok p := by
  obtain ⟨texts, ls, hreads, hp⟩ := h
  obtain ⟨d, hd, hdescribes⟩ := Draft.exists_draft hreads
  rw [assemble_of_draft hd, hdescribes.program_of_contents hp]

theorem assemble_of_refuses {source : String} {size : Nat} {e : AssemblyError}
    (h : Refuses source size e) : Program.assemble source size = .error e := by
  cases h with
  | line hsplits hlines hnodup hm =>
    exact assemble_of_misfit (Draft.ofSource_of_misfit hsplits hlines hnodup hm) size
  | length hreads hlen =>
    obtain ⟨d, hd, hdescribes⟩ := Draft.exists_draft hreads
    rw [assemble_of_draft hd, hdescribes.program_of_length hlen]
  | statement hreads hbefore hlen hfirst hs hfault =>
    obtain ⟨d, hd, hdescribes⟩ := Draft.exists_draft hreads
    rw [assemble_of_draft hd, program_of_fault hdescribes hbefore hlen hfirst hs hfault]

theorem assemble_eq_ok_iff {source : String} {size : Nat} {p : Program} :
    Program.assemble source size = .ok p ↔ Assembles source size p := by
  refine ⟨fun h => ?_, assemble_of_assembles⟩
  rcases assembles_or_refuses source size with ⟨q, hq⟩ | ⟨e, he⟩
  · rw [assemble_of_assembles hq] at h
    exact Except.ok.inj h ▸ hq
  · rw [assemble_of_refuses he] at h
    cases h

theorem assemble_eq_error_iff {source : String} {size : Nat} {e : AssemblyError} :
    Program.assemble source size = .error e ↔ Refuses source size e := by
  refine ⟨fun h => ?_, assemble_of_refuses⟩
  rcases assembles_or_refuses source size with ⟨q, hq⟩ | ⟨e', he'⟩
  · rw [assemble_of_assembles hq] at h
    cases h
  · rw [assemble_of_refuses he'] at h
    exact Except.error.inj h ▸ he'

/-- An operand has at most one value in the lines of a source text. -/
theorem Reads.value_unique {source : String} {texts : List (List Char)} {ls : List Line}
    (h : Reads source texts ls) {o : Operand} {v v' : Int} (hv : Value ls o v)
    (hv' : Value ls o v') : v = v' := by
  obtain ⟨d, -, hd⟩ := Draft.exists_draft h
  exact hd.value_unique hv hv'

/-- A source text is a program exactly if its lines read, there is room for its instructions, and
each of its statements means something. -/
theorem exists_assembles_iff {source : String} {size : Nat} :
    (∃ p, Assembles source size p) ↔ ∃ texts ls, Reads source texts ls ∧
      (commands ls).length ≤ room size ∧ ∀ s ∈ statements ls, Meaningful ls size s := by
  constructor
  · rintro ⟨p, texts, ls, hreads, hp⟩
    refine ⟨texts, ls, hreads, hp.length_le, fun s hs => ?_⟩
    cases s with
    | command c =>
      exact exists_of_forall₂ hp.instructions c (List.mem_filterMap.2 ⟨_, hs, rfl⟩)
    | data a v =>
      exact exists_of_forall₂ hp.data (a, v) (List.mem_filterMap.2 ⟨_, hs, rfl⟩)
  · rintro ⟨texts, ls, hreads, hlen, hs⟩
    obtain ⟨⟨is, his⟩, cells, hcells⟩ := exists_contents hs
    obtain ⟨d, -, h⟩ := Draft.exists_draft hreads
    exact ⟨_, texts, ls, hreads, h.contents hlen his hcells⟩

/-- **Assembly is exact.** There is a program exactly if the lines of the source text read, they
have room, and their statements mean something; it is the program that they mean. Else the error is
the reason why the source text is refused. -/
theorem assemble_exact (source : String) (size : Nat) :
    ((∃ p, Program.assemble source size = .ok p) ↔ ∃ texts ls, Reads source texts ls ∧
      (commands ls).length ≤ min size fullSize ∧ ∀ s ∈ statements ls, Meaningful ls size s) ∧
    (∀ p, Program.assemble source size = .ok p ↔ Assembles source size p) ∧
    ∀ e, Program.assemble source size = .error e ↔ Refuses source size e := by
  refine ⟨?_, fun p => assemble_eq_ok_iff, fun e => assemble_eq_error_iff⟩
  rw [exists_congr fun p => assemble_eq_ok_iff, exists_assembles_iff]
  rfl

end AccumulatorMachine.Assembly
