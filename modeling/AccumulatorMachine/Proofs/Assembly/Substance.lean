import AccumulatorMachine.Proofs.Assembly.Agreement
import AccumulatorMachine.Proofs.Assembly.Exactness
import AccumulatorMachine.Proofs.Assembly.LetterCase

/-! # What counts of a source text

Of a line counts its code in capitals (`essence`), and of a text count those of its lines that have
any (`substance`). Texts of one substance are read alike. An error also names a line, so for the
errors it has to be known where each line of one text stands in the other (`Follows`); then a
source text that is refused is refused after the change too, for the same reason and on the line
that corresponds (`Follows.refuses`).
-/

namespace AccumulatorMachine.Assembly
set_option autoImplicit false
open Text

/-! ## Lines without blank ones -/

def solid (ls : List Line) : List Line := ls.filter (· ≠ .blank)

theorem statements_solid (ls : List Line) : statements (solid ls) = statements ls := by
  rw [statements, solid, List.filterMap_filter]
  exact congrArg (List.filterMap · ls) (funext fun l => by cases l <;> rfl)

theorem definitions_solid (start : Nat) (ls : List Line) :
    definitions start (solid ls) = definitions start ls := by
  induction ls generalizing start with
  | nil => rfl
  | cons l ls ih =>
    cases l with
    | blank => exact ih start
    | _ => exact congrArg (_ ++ ·) (ih _)

theorem agrees_of_solid {ls ls' : List Line} (h : solid ls = solid ls') : Agrees ls ls' where
  commands := by rw [commands, commands, ← statements_solid, h, statements_solid]
  data := by rw [data, data, ← statements_solid, h, statements_solid]
  definitions := by rw [← definitions_solid, h, definitions_solid]

/-! ## The substance of lines -/

/-- What counts of a line: its code, in capitals. -/
def essence (text : List Char) : List Char := capitals (code text)

theorem readLine_eq (text : List Char) : readLine text = readCode (essence text) :=
  (readCode_capitals (code text)).symm

theorem isLine_iff {text : List Char} {l : Line} :
    IsLine text l ↔ readCode (essence text) = some l := by
  rw [← readLine_eq_some_iff, readLine_eq]

theorem isLine_congr {text text' : List Char} (h : essence text = essence text') {l : Line} :
    IsLine text l ↔ IsLine text' l := by
  rw [isLine_iff, isLine_iff, h]

/-- What counts of lines, line by line, without those that are blank or a comment. -/
def substance (texts : List (List Char)) : List (List Char) := (texts.map essence).filter (· ≠ [])

@[simp] theorem substance_append (texts texts' : List (List Char)) :
    substance (texts ++ texts') = substance texts ++ substance texts' := by
  rw [substance, List.map_append, List.filter_append]
  rfl

theorem substance_eq_nil {texts : List (List Char)} (h : ∀ t ∈ texts, code t = []) :
    substance texts = [] := by
  rw [substance, List.filter_eq_nil_iff]
  intro cs hcs
  obtain ⟨t, ht, rfl⟩ := List.mem_map.1 hcs
  simp [essence, h t ht]

theorem readCode_eq_blank_iff {cs : List Char} : readCode cs = some .blank ↔ cs = [] := by
  constructor
  · intro h
    by_contra h0
    by_cases hhead : cs.head? = some ':'
    · obtain ⟨rest, rfl⟩ := List.head?_eq_some_iff.1 hhead
      obtain ⟨_, _, _, _, -, -, -, -, heq⟩ := readData_eq_some_iff.1 h
      cases heq
    rw [readCode_of_not_data h0 hhead] at h
    split at h
    · obtain ⟨_, _, -, -, heq⟩ := readConstant_eq_some_iff.1 h
      cases heq
    · split at h
      · obtain ⟨_, -, ⟨-, heq⟩ | ⟨_, -, heq⟩⟩ := readLabel_eq_some_iff.1 h
        · cases heq
        · cases heq
      · obtain ⟨_, -, heq⟩ := Option.map_eq_some_iff.1 h
        cases heq
  · rintro rfl
    rfl

theorem solid_readings (texts : List (List Char)) :
    solid (readings texts) = (substance texts).filterMap readCode := by
  rw [solid, readings, List.filter_filterMap, substance, List.filterMap_filter, List.filterMap_map]
  refine congrArg (List.filterMap · texts) (funext fun t => ?_)
  rw [readLine_eq, Function.comp_apply]
  by_cases h0 : essence t = []
  · rw [h0]
    rfl
  · rw [if_pos (by simpa using h0)]
    cases hl : readCode (essence t) with
    | none => rfl
    | some l =>
      have hl0 : l ≠ .blank := by
        rintro rfl
        exact h0 (readCode_eq_blank_iff.1 hl)
      exact Option.filter_some_pos (by simpa using hl0)

section
variable {texts texts' : List (List Char)} (h : substance texts = substance texts')
include h

theorem solid_readings_congr : solid (readings texts) = solid (readings texts') := by
  rw [solid_readings, h, solid_readings]

theorem agrees_readings : Agrees (readings texts) (readings texts') :=
  agrees_of_solid (solid_readings_congr h)

/-- Texts of one substance read alike. -/
theorem exists_isLine_congr (hread : ∀ t ∈ texts, ∃ l, IsLine t l) :
    ∀ t ∈ texts', ∃ l, IsLine t l := by
  intro t ht
  by_cases h0 : essence t = []
  · exact ⟨.blank, isLine_iff.2 (h0 ▸ rfl)⟩
  · have hmem : essence t ∈ substance texts' :=
      List.mem_filter.2 ⟨List.mem_map_of_mem ht, by simpa using h0⟩
    rw [← h] at hmem
    obtain ⟨u, hu, heq⟩ := List.mem_map.1 (List.mem_filter.1 hmem).1
    exact (hread u hu).imp fun l hl => (isLine_congr heq).1 hl

theorem forall₂_readings_congr {ls : List Line} (hlines : List.Forall₂ IsLine texts ls) :
    ls = readings texts ∧ List.Forall₂ IsLine texts' (readings texts') := by
  obtain ⟨hread, rfl⟩ := forall₂_isLine_iff.1 hlines
  exact ⟨rfl, forall₂_isLine_iff.2 ⟨exists_isLine_congr h hread, rfl⟩⟩

end

/-! ## Corresponding errors -/

/-- The same error with the same numbers, on line `f n` for line `n`. -/
inductive Corresponds (f : Nat → Nat) : AssemblyError → AssemblyError → Prop
  | malformed {n : Nat} {text text' : String} :
      Corresponds f (.malformed n text) (.malformed (f n) text')
  | dataOutOfRange {n : Nat} {text text' : String} {address : Int} :
      Corresponds f (.dataOutOfRange n text address) (.dataOutOfRange (f n) text' address)
  | tooLarge {size available : Nat} :
      Corresponds f (.tooLarge size available) (.tooLarge size available)
  | memory {fault : AddressFault} : Corresponds f (.memory fault) (.memory fault)

theorem Fault.exists_corresponds {ls : List Line} {size n : Nat} {text : List Char} {s : Statement}
    {e : AssemblyError} (h : Fault ls size n text s e) (f : Nat → Nat) (text' : List Char) :
    ∃ e', Fault ls size (f n) text' s e' ∧ Corresponds f e e' := by
  cases h with
  | command hno => exact ⟨_, .command hno, .malformed⟩
  | valueless hno => exact ⟨_, .valueless hno, .malformed⟩
  | outside hx hy hrange => exact ⟨_, .outside hx hy hrange, .dataOutOfRange⟩

/-! ## Texts line against line -/

/-- The number of line `n` after `count` lines have been put after the first `place` lines. -/
def shift (place count n : Nat) : Nat := if n ≤ place then n else n + count

/-- The lines `texts'` have the substance of `texts`, and line `f n` of them counts as much as line
`n` and comes after as much. -/
structure Follows (f : Nat → Nat) (texts texts' : List (List Char)) : Prop where
  same : substance texts = substance texts'
  tracks : ∀ before t after, texts = before ++ t :: after →
    ∃ before' t' after', texts' = before' ++ t' :: after' ∧ essence t = essence t' ∧
      substance before = substance before' ∧ before'.length + 1 = f (before.length + 1)

namespace Follows
variable {f g : Nat → Nat} {texts texts' texts'' : List (List Char)}

theorem trans (h : Follows f texts texts') (h' : Follows g texts' texts'') :
    Follows (g ∘ f) texts texts'' where
  same := h.same.trans h'.same
  tracks before t after htexts := by
    obtain ⟨before', t', after', htexts', ht, hbefore, hline⟩ := h.tracks before t after htexts
    obtain ⟨before'', t'', after'', htexts'', ht', hbefore', hline'⟩ :=
      h'.tracks before' t' after' htexts'
    refine ⟨before'', t'', after'', htexts'', ht.trans ht', hbefore.trans hbefore', ?_⟩
    rw [hline', hline]
    rfl

theorem of_map_essence (h : texts.map essence = texts'.map essence) : Follows id texts texts' where
  same := congrArg (List.filter _) h
  tracks before t after htexts := by
    rw [htexts] at h
    obtain ⟨before', rest, rfl, hbefore, hrest⟩ :=
      List.map_eq_append_iff.1 (h.symm.trans List.map_append)
    obtain ⟨t', after', rfl, ht, -⟩ := List.map_eq_cons_iff.1 hrest
    refine ⟨before', t', after', rfl, ht.symm, congrArg (List.filter _) hbefore.symm, ?_⟩
    simpa using congrArg List.length hbefore

theorem insert {between : List (List Char)} (h : ∀ t ∈ between, code t = [])
    (first rest : List (List Char)) :
    Follows (shift first.length between.length) (first ++ rest) (first ++ between ++ rest) where
  same := by simp [substance_eq_nil h]
  tracks before t after htexts := by
    rcases List.append_eq_append_iff.1 htexts with ⟨skipped, rfl, rfl⟩ | ⟨more, rfl, hmore⟩
    · -- the line is one of those after the place
      refine ⟨first ++ between ++ skipped, t, after, by simp, rfl, by simp [substance_eq_nil h], ?_⟩
      simp only [shift, List.length_append]
      rw [if_neg (by omega)]
      omega
    · cases more with
      | nil =>
        obtain rfl : t :: after = rest := hmore
        refine ⟨before ++ between, t, after, by simp, rfl, by simp [substance_eq_nil h], ?_⟩
        simp only [shift, List.length_append, List.append_nil]
        rw [if_neg (by omega)]
        omega
      | cons u more =>
        obtain ⟨rfl, rfl⟩ := List.cons.inj hmore
        refine ⟨before, t, more ++ between ++ rest, by simp, rfl, rfl, ?_⟩
        rw [shift, if_pos (by simp)]

end Follows

/-! ## Source texts -/

theorem forall₂_split {before after : List (List Char)} {text : List Char} {first rest : List Line}
    {l : Line} (h : List.Forall₂ IsLine (before ++ text :: after) (first ++ l :: rest))
    (hlen : before.length = first.length) :
    List.Forall₂ IsLine before first ∧ IsLine text l := by
  have htake := List.forall₂_take before.length h
  have hdrop := List.forall₂_drop before.length h
  rw [List.take_left, hlen, List.take_left] at htake
  rw [List.drop_left, hlen, List.drop_left] at hdrop
  exact ⟨htake, (List.forall₂_cons.1 hdrop).1⟩

section
variable {source source' : String} {size : Nat}
  (h : substance (lines source.toList) = substance (lines source'.toList))
include h

theorem reads_of_substance {texts : List (List Char)} {ls : List Line}
    (hreads : Reads source texts ls) :
    Agrees ls (readings (lines source'.toList)) ∧
      Reads source' (lines source'.toList) (readings (lines source'.toList)) := by
  obtain ⟨hread, rfl⟩ := hreads.eq_readings
  have hagrees := agrees_readings h
  exact ⟨hagrees, hreads.of_agrees (exists_isLine_congr h hread) hagrees⟩

theorem assembles_of_substance {p : Program} (hp : Assembles source size p) :
    Assembles source' size p := by
  obtain ⟨texts, ls, hreads, hcontents⟩ := hp
  obtain ⟨hagrees, hreads'⟩ := reads_of_substance h hreads
  exact ⟨_, _, hreads', hagrees.contents hcontents⟩

end

section
variable {f : Nat → Nat} {source source' : String} {size : Nat}
  (h : Follows f (lines source.toList) (lines source'.toList))
include h

theorem Follows.assembles {p : Program} (hp : Assembles source size p) : Assembles source' size p :=
  assembles_of_substance h.same hp

theorem Follows.refuses {e : AssemblyError} (he : Refuses source size e) :
    ∃ e', Refuses source' size e' ∧ Corresponds f e e' := by
  cases he with
  | @line before after text ls hsplits hbefore hnodup hmisfit =>
    obtain ⟨before', text', after', htexts, htext, hsame, hline⟩ :=
      h.tracks before text after hsplits.lines_eq
    obtain ⟨rfl, hbefore'⟩ := forall₂_readings_congr hsame hbefore
    have hagrees := agrees_readings hsame
    have hmisfit' : Misfit (readings before') text' := by
      intro l hl
      obtain ⟨s, hs, hmem⟩ := hmisfit l ((isLine_congr htext).2 hl)
      exact ⟨s, hs, hagrees.perm_names.mem_iff.1 hmem⟩
    refine ⟨_, .line (htexts ▸ splits_iff.2 rfl) hbefore'
      (hagrees.perm_names.nodup_iff.1 hnodup) hmisfit', ?_⟩
    rw [hline]
    exact .malformed
  | @length texts ls hreads hlen =>
    obtain ⟨hagrees, hreads'⟩ := reads_of_substance h.same hreads
    rw [hagrees.commands] at hlen ⊢
    exact ⟨_, .length hreads' hlen, .tooLarge⟩
  | @statement before after text first rest l s e hreads hbefore hlen hfirst hs hfault =>
    obtain ⟨before', text', after', htexts, htext, hsame, hline⟩ :=
      h.tracks before text after hreads.splits.lines_eq
    obtain ⟨hagrees, hreads'⟩ := reads_of_substance h.same hreads
    obtain ⟨hfirstLines, hline'⟩ := forall₂_split hreads.lines hbefore
    obtain ⟨rfl, hfirst'⟩ := forall₂_readings_congr hsame hfirstLines
    have hstatements : statements (readings before') = statements (readings before) := by
      rw [← statements_solid, ← solid_readings_congr hsame, statements_solid]
    -- the line stands between the same statements in both texts
    have hparts : readings (lines source'.toList) = readings before' ++ l :: readings after' := by
      rw [htexts, readings_append, readings_cons ((isLine_congr htext).1 hline')]
    rw [hparts] at hagrees hreads'
    rw [htexts] at hreads'
    obtain ⟨e', hfault', he'⟩ := hfault.exists_corresponds f text'
    rw [← hline] at hfault'
    refine ⟨e', .statement hreads' hfirst'.length_eq ?_ ?_ hs (hagrees.fault hfault'), he'⟩
    · rwa [← hagrees.commands]
    · rw [hstatements]
      exact fun s' hs' => hagrees.meaningful (hfirst s' hs')

end

end AccumulatorMachine.Assembly
