import MobileCoin.Lib.PrefixCode
import MobileCoin.Digestible.Transcript

/-!
# The digestible encoding is prefix-free

The correctness condition of the digestible protocol (README, "Correctness"): the map from
a context and an AST to its `append_bytes` calls is prefix-free, hence injective. The proof
is an induction over the AST. Every node opens with `(context, separator)`, so the first call
fixes the context and the node kind; sequences are framed by their length, aggregates by a
closer whose separator `agg-end` no node opens with.
-/

namespace MobileCoin.Digestible

open PrefixCode

def Ast.separator : Ast → Bytes
  | .primitive _ _ => PRIMITIVE
  | .none => NONE
  | .seq _ => SEQUENCE
  | .agg _ _ => AGGREGATE
  | .var _ _ _ _ => VARIANT

theorem Ast.emit_head (a : Ast) (context : Bytes) :
    ∃ rest, a.emit context = (context, a.separator) :: rest := by
  cases a <;> simp [Ast.emit, Ast.separator, appendPrimitive, appendNone, appendSeqHeader,
    appendAggHeader, appendVarHeader]

theorem Ast.separator_ne_end (a : Ast) : a.separator ≠ AGGREGATE_END := by
  cases a <;> (simp only [Ast.separator]; decide)

abbrev coded (node : Bytes × Ast) : Transcript := node.2.emit node.1

abbrev Fitting (node : Bytes × Ast) : Prop := node.2.fits = true

theorem coded_opens_before_closer (context : Bytes) (node : Bytes × Ast) :
    ∃ b bs, coded node = b :: bs ∧ b ≠ (context, AGGREGATE_END) := by
  obtain ⟨rest, head⟩ := node.2.emit_head node.1
  refine ⟨_, rest, head, ?_⟩
  intro same
  exact node.2.separator_ne_end (Prod.mk.inj same).2

theorem separator_cases {a b : Ast} (h : a.separator = b.separator) :
    (∃ t d t' d', a = .primitive t d ∧ b = .primitive t' d') ∨ (a = .none ∧ b = .none) ∨
    (∃ xs ys, a = .seq xs ∧ b = .seq ys) ∨ (∃ n fs n' fs', a = .agg n fs ∧ b = .agg n' fs') ∨
    (∃ n w p c n' w' p' c', a = .var n w p c ∧ b = .var n' w' p' c') := by
  cases a <;> cases b <;> simp_all [Ast.separator] <;> contradiction

theorem uint32_of_leBytes {w w' : UInt32} (h : leBytes 4 w.toNat = leBytes 4 w'.toNat) : w = w' :=
  UInt32.toNat_inj.mp (leBytes_injective (by simpa using w.toNat_lt) (by simpa using w'.toNat_lt) h)

/-- The emission of every fitting node below size `n` is prefix-unique against every fitting
node; the induction on `n` runs over the size of the tree. -/
theorem emit_unique_of_size (n : Nat) :
    ∀ (a : Ast) (context : Bytes), sizeOf a < n → a.fits = true →
      UniqueAt Fitting coded (context, a) := by
  induction n with
  | zero => intro a _ small; omega
  | succ n ih =>
  rintro a context small fits ⟨context', b⟩ fits' r s h
  change b.fits = true at fits'
  obtain ⟨rest, head⟩ := a.emit_head context
  obtain ⟨rest', head'⟩ := b.emit_head context'
  have opening : context = context' ∧ a.separator = b.separator := by
    have := congrArg List.head? h
    rw [coded, coded, head, head'] at this
    simpa using this
  obtain ⟨rfl, kinds⟩ := opening
  rcases separator_cases kinds with
    ⟨t, d, t', d', rfl, rfl⟩ | ⟨rfl, rfl⟩ | ⟨xs, ys, rfl, rfl⟩ | ⟨name, fs, name', fs', rfl, rfl⟩ |
      ⟨name, w, p, c, name', w', p', c', rfl, rfl⟩
  · -- a primitive is its two calls
    simp only [coded, Ast.emit, appendPrimitive, List.cons_append, List.nil_append,
      List.cons.injEq, Prod.mk.injEq] at h
    obtain ⟨-, ⟨rfl, rfl⟩, rfl⟩ := h
    exact ⟨rfl, rfl⟩
  · simp only [coded, Ast.emit, appendNone, List.cons_append, List.nil_append, List.cons.injEq] at h
    exact ⟨rfl, h.2⟩
  · -- the length call fixes the number of elements, then each element is prefix-unique
    simp only [Ast.fits, Bool.and_eq_true, decide_eq_true_eq] at fits fits'
    simp only [coded, Ast.emit, appendSeqHeader, emitElems_eq_flatMap, List.cons_append,
      List.nil_append, List.cons.injEq, Prod.mk.injEq, true_and] at h
    obtain ⟨lengthBytes, h⟩ := h
    have length : xs.length = ys.length :=
      leBytes_injective (by simpa using fits.1) (by simpa using fits'.1) lengthBytes
    have elems : ∀ x ∈ xs, UniqueAt (fun y : Ast => y.fits = true) (Ast.emit []) x := by
      intro x member y fitsY r' s' h'
      have smaller : sizeOf x < n := by
        have := List.sizeOf_lt_of_mem member
        simp only [Ast.seq.sizeOf_spec] at small
        omega
      have := ih x [] smaller ((elemsFit_iff xs).mp fits.2 x member) ([], y) fitsY r' s' h'
      exact ⟨(Prod.mk.inj this.1).2, this.2⟩
    obtain ⟨rfl, rfl⟩ := flatMap_unique_of_length elems
      ((elemsFit_iff ys).mp fits'.2) length h
    exact ⟨rfl, rfl⟩
  · -- fields run until the closer, which no field opens with
    simp only [Ast.fits] at fits fits'
    simp only [coded, Ast.emit, appendAggHeader, appendAggCloser, emitFields_eq_flatMap,
      List.cons_append, List.nil_append, List.append_assoc, List.cons.injEq, Prod.mk.injEq,
      true_and] at h
    obtain ⟨rfl, h⟩ := h
    have fields : ∀ field ∈ fs, UniqueAt Fitting coded field := by
      intro field member
      have smaller : sizeOf field.2 < n := by
        have := List.sizeOf_lt_of_mem member
        have : sizeOf field.2 < sizeOf field := by cases field; simp only [Prod.mk.sizeOf_spec]; omega
        simp only [Ast.agg.sizeOf_spec] at small
        omega
      exact ih field.2 field.1 smaller ((fieldsFit_iff fs).mp fits field member)
    obtain ⟨rfl, closer⟩ := flatMap_terminated_unique fields ((fieldsFit_iff fs').mp fits')
      (coded_opens_before_closer context) h
    simp only [List.cons.injEq, true_and] at closer
    exact ⟨rfl, closer⟩
  · -- the header fixes name and discriminant, then the child is prefix-unique
    simp only [Ast.fits] at fits fits'
    simp only [coded, Ast.emit, appendVarHeader, List.cons_append, List.nil_append,
      List.cons.injEq, Prod.mk.injEq, true_and] at h
    obtain ⟨rfl, discriminant, h⟩ := h
    obtain rfl := uint32_of_leBytes discriminant
    have smaller : sizeOf c < n := by simp only [Ast.var.sizeOf_spec] at small; omega
    obtain ⟨same, rfl⟩ := ih c p smaller fits (p', c') fits' r s h
    obtain ⟨rfl, rfl⟩ := Prod.mk.inj same
    exact ⟨rfl, rfl⟩

theorem emit_unique (a : Ast) (context : Bytes) (fits : a.fits = true) :
    UniqueAt Fitting coded (context, a) :=
  emit_unique_of_size (sizeOf a + 1) a context (by omega) fits

/-- The digestible transcript is a prefix-free, injective encoding of context and AST: one
emission is a prefix of another only when the two are equal, and equal emissions come from
the same context and the same tree. -/
theorem emit_prefix_free (c1 c2 : Bytes) (a1 a2 : Ast) (fits1 : a1.fits = true)
    (fits2 : a2.fits = true) :
    (a1.emit c1 <+: a2.emit c2 → a1.emit c1 = a2.emit c2) ∧
      (a1.emit c1 = a2.emit c2 → c1 = c2 ∧ a1 = a2) := by
  have unique := emit_unique a1 c1 fits1
  constructor
  · rintro ⟨rest, h⟩
    have empty := unique.not_proper_prefix (y := (c2, a2)) fits2 h
    rw [← h, empty, List.append_nil]
  · intro h
    have same := unique.eq_of_enc_eq (y := (c2, a2)) fits2 h
    exact Prod.mk.inj same

theorem emit_prefix_free_agg_seq :
    (Ast.agg [0x41] [([0x78], .none)]).fits = true ∧ (Ast.seq [.none]).fits = true ∧
      (((Ast.agg [0x41] [([0x78], .none)]).emit [] <+: (Ast.seq [.none]).emit [] →
          (Ast.agg [0x41] [([0x78], .none)]).emit [] = (Ast.seq [.none]).emit []) ∧
        ((Ast.agg [0x41] [([0x78], .none)]).emit [] = (Ast.seq [.none]).emit [] →
          ([] : Bytes) = [] ∧ Ast.agg [0x41] [([0x78], .none)] = Ast.seq [.none])) :=
  ⟨by decide, by decide, emit_prefix_free [] [] _ _ (by decide) (by decide)⟩

end MobileCoin.Digestible
