import AccumulatorMachine.Proofs.Assembly.Exactness
import AccumulatorMachine.Proofs.Memory.Cells

/-! # The image of a program

What a program has to say about each address (`Program.word?`): the last datum for it counts, and
else the instruction that stands there. The cells of the image, set one after the other, come to
the same (`Program.word_putAll_image`), and all of them are inside the memory that the program was
assembled for (`Program.image_inside`).
-/

namespace AccumulatorMachine.Program
set_option autoImplicit false

/-- The word of the last datum for the address `a`. -/
def datum? (p : Program) (a : Nat) : Option Word :=
  ((p.data.filter (·.1 == a)).getLast?).map Prod.snd

/-- The word that the program puts at the address `a`, if it puts one there. -/
def word? (p : Program) (a : Nat) : Option Word :=
  (p.datum? a).or (p.instructions[a]?.map Instruction.encode)

/-! ## The cells of an image -/

/-- Of several cells with one address, the last one counts. -/
theorem lookup_reverse (cells : List (Nat × Word)) (a : Nat) :
    cells.reverse.lookup a = ((cells.filter (·.1 == a)).getLast?).map Prod.snd := by
  induction cells with
  | nil => rfl
  | cons c cells ih =>
    obtain ⟨b, w⟩ := c
    rw [List.reverse_cons, List.lookup_append, ih, List.lookup_cons, List.lookup_nil]
    by_cases h : b = a
    · subst h
      have hkept : ((b, w) :: cells).filter (·.1 == b) = (b, w) :: cells.filter (·.1 == b) :=
        List.filter_cons_of_pos (by simp)
      rw [hkept, List.getLast?_cons]
      cases (cells.filter (·.1 == b)).getLast? with
      | none => simp
      | some c => simp
    · have hdropped : ((b, w) :: cells).filter (·.1 == a) = cells.filter (·.1 == a) :=
        List.filter_cons_of_neg (by simp [h])
      have hbeq : (a == b) = false := beq_eq_false_iff_ne.2 (Ne.symm h)
      rw [hdropped, hbeq, Option.or_none]

/-- The instructions of a program as cells, the first one at the address `start`. -/
theorem lookup_code (is : List Instruction) (start a : Nat) :
    (((is.zipIdx start).map fun c => (c.2, c.1.encode)).reverse).lookup a =
      if start ≤ a then is[a - start]?.map Instruction.encode else none := by
  induction is generalizing start with
  | nil => simp
  | cons i is ih =>
    rw [List.zipIdx_cons, List.map_cons, List.reverse_cons, List.lookup_append, ih,
      List.lookup_cons, List.lookup_nil]
    rcases Nat.lt_trichotomy a start with hlt | rfl | hlt
    · have hbeq : (a == start) = false := beq_eq_false_iff_ne.2 (by omega)
      rw [if_neg (by omega), if_neg (by omega), hbeq]
      rfl
    · rw [if_neg (by omega), if_pos (Nat.le_refl a), Nat.sub_self, beq_self_eq_true]
      rfl
    · have hbeq : (a == start) = false := beq_eq_false_iff_ne.2 (by omega)
      have hindex : a - start = a - (start + 1) + 1 := by omega
      rw [if_pos (by omega), if_pos (by omega), hbeq, hindex, List.getElem?_cons_succ,
        Option.or_none]

theorem lookup_image (p : Program) (a : Nat) : p.image.reverse.lookup a = p.word? a := by
  rw [image, List.reverse_append, List.lookup_append, lookup_reverse, lookup_code,
    if_pos (Nat.zero_le a), Nat.sub_zero]
  rfl

theorem word_putAll_image {p : Program} {m : Memory} (h : ∀ c ∈ p.image, c.1 < m.size) (a : Nat) :
    (m.putAll p.image).word a = (p.word? a).getD (m.word a) := by
  rw [Memory.word_putAll h, lookup_image]

/-- An instruction stands at its own address, unless a datum was put there. -/
theorem word?_of_code {p : Program} {k : Nat} {i : Instruction} (hi : p.instructions[k]? = some i)
    (hdata : ∀ d ∈ p.data, d.1 ≠ k) : p.word? k = some i.encode := by
  have hnone : p.data.filter (·.1 == k) = [] := by
    rw [List.filter_eq_nil_iff]
    intro d hd
    simp [hdata d hd]
  rw [word?, datum?, hnone, hi]
  rfl

/-! ## What fits -/

/-- A program is never longer than memory, nor than the program counter can count. -/
theorem length_le_of_assemble {source : String} {size : Nat} {p : Program}
    (h : assemble source size = .ok p) : p.instructions.length ≤ min size fullSize := by
  obtain ⟨texts, ls, -, hp⟩ := Assembly.assemble_eq_ok_iff.1 h
  rw [← hp.instructions.length_eq]
  exact hp.length_le

/-- Whatever is assembled for a memory fits into it. -/
theorem image_inside {source : String} {size : Nat} {p : Program}
    (h : assemble source size = .ok p) : ∀ c ∈ p.image, c.1 < size := by
  intro c hc
  have hlength : p.instructions.length ≤ min size 4096 := length_le_of_assemble h
  rcases List.mem_append.1 hc with hcode | hdata
  · obtain ⟨i, hi, rfl⟩ := List.mem_map.1 hcode
    have hlt : i.2 < p.instructions.length + 0 := List.snd_lt_of_mem_zipIdx hi
    show i.2 < size
    omega
  · obtain ⟨texts, ls, -, hp⟩ := Assembly.assemble_eq_ok_iff.1 h
    obtain ⟨k, hk, rfl⟩ := List.getElem_of_mem hdata
    have hk' : k < (Assembly.data ls).length := hp.data.length_eq ▸ hk
    exact (hp.data.get hk' hk).inside

/-- What is a program for a memory is the same program for a larger one. -/
theorem assemble_of_le {source : String} {size size' : Nat} {p : Program} (hle : size ≤ size')
    (h : assemble source size = .ok p) : assemble source size' = .ok p := by
  obtain ⟨texts, ls, hreads, hp⟩ := Assembly.assemble_eq_ok_iff.1 h
  have hroom : Assembly.room size ≤ Assembly.room size' := by
    rw [Assembly.room, Assembly.room]
    omega
  have hdatum (d : Assembly.Operand × Assembly.Operand) (cell : Nat × Word)
      (hd : Assembly.DatumMeans ls size d cell) : Assembly.DatumMeans ls size' d cell :=
    ⟨hd.address, Nat.lt_of_lt_of_le hd.inside hle, hd.value⟩
  refine Assembly.assemble_eq_ok_iff.2 ⟨texts, ls, hreads, ?_⟩
  exact ⟨hp.length_le.trans hroom, hp.instructions, hp.data.imp hdatum, hp.symbols, hp.sorted⟩

/-! ## The last address -/

theorem lastAddress_eq_some_iff {p : Program} (h : p.instructions.length ≤ 65536) {a : Word} :
    p.lastAddress = some a ↔ a.toNat + 1 = p.instructions.length := by
  rw [lastAddress]
  cases hn : p.instructions.length with
  | zero => simp
  | succ n =>
    have hlast : (UInt16.ofNat n).toNat = n := UInt16.toNat_ofNat_of_lt' (by
      show n < 65536
      omega)
    rw [Option.some.injEq, ← UInt16.toNat_inj, hlast]
    omega

theorem lastAddress_of_ne_nil {p : Program} (h : p.instructions ≠ []) :
    p.lastAddress = some (UInt16.ofNat (p.instructions.length - 1)) := by
  rw [lastAddress]
  cases hn : p.instructions.length with
  | zero => exact absurd (List.length_eq_zero_iff.1 hn) h
  | succ n => rfl

end AccumulatorMachine.Program
