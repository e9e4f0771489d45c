import Mathlib

/-!
# Digestible transcripts

`mc_crypto_digestible` hashes a value by walking it as an abstract syntax tree and calling
`append_bytes(label, data)` on a merlin transcript once per framed message. We model a
transcript as the list of `(label, data)` pairs passed to `append_bytes`, the five AST
node kinds of the protocol, the `DigestTranscript` methods that emit each node header, and
the `Digestible` impls for tuples, slices and `Option`.
-/

namespace MobileCoin.Digestible

abbrev Bytes := List UInt8

/-- The calls made to `append_bytes`, in order. -/
abbrev Transcript := List (Bytes × Bytes)

/-! ### Domain separators and fixed labels -/

def PRIMITIVE : Bytes := [0x70, 0x72, 0x69, 0x6d]

def SEQUENCE : Bytes := [0x73, 0x65, 0x71]

def AGGREGATE : Bytes := [0x61, 0x67, 0x67]

def AGGREGATE_END : Bytes := [0x61, 0x67, 0x67, 0x2d, 0x65, 0x6e, 0x64]

def VARIANT : Bytes := [0x76, 0x61, 0x72]

def NONE : Bytes := []

def lenLabel : Bytes := [0x6c, 0x65, 0x6e]

def nameLabel : Bytes := [0x6e, 0x61, 0x6d, 0x65]

def whichLabel : Bytes := [0x77, 0x68, 0x69, 0x63, 0x68]

/-- `to_le_bytes` of an integer `width` bytes wide: the low `width` bytes of `n`, least
significant first. -/
def leBytes : Nat → Nat → Bytes
  | 0, _ => []
  | width + 1, n => UInt8.ofNat n :: leBytes width (n / 256)

theorem leBytes_injective {width m n : Nat} (hm : m < 256 ^ width) (hn : n < 256 ^ width)
    (h : leBytes width m = leBytes width n) : m = n := by
  induction width generalizing m n with
  | zero => simp at hm hn; omega
  | succ width ih =>
    simp only [leBytes, List.cons.injEq] at h
    obtain ⟨low, high⟩ := h
    have lowMod : m % 256 = n % 256 := by
      have := congrArg UInt8.toNat low
      simpa [UInt8.toNat_ofNat] using this
    have highDiv : m / 256 = n / 256 :=
      ih (Nat.div_lt_of_lt_mul (by rwa [Nat.pow_succ, Nat.mul_comm] at hm))
        (Nat.div_lt_of_lt_mul (by rwa [Nat.pow_succ, Nat.mul_comm] at hn)) high
    omega

/-! ### `DigestTranscript` -/

def appendPrimitive (context typename data : Bytes) : Transcript :=
  [(context, PRIMITIVE), (typename, data)]

def appendSeqHeader (context : Bytes) (len : Nat) : Transcript :=
  [(context, SEQUENCE), (lenLabel, leBytes 8 len)]

def appendAggHeader (context typeName : Bytes) : Transcript :=
  [(context, AGGREGATE), (nameLabel, typeName)]

def appendAggCloser (context typeName : Bytes) : Transcript :=
  [(context, AGGREGATE_END), (nameLabel, typeName)]

def appendVarHeader (context typeName : Bytes) (which : UInt32) : Transcript :=
  [(context, VARIANT), (nameLabel, typeName), (whichLabel, leBytes 4 which.toNat)]

def appendNone (context : Bytes) : Transcript :=
  [(context, NONE)]

/-! ### The AST and its emission -/

/-- The AST a `Digestible` value is appended as. An aggregate lists the fields that were not
omitted, each under its field name; a variant holds one child under its possibility name. -/
inductive Ast where
  | primitive (typename data : Bytes)
  | none
  | seq (elems : List Ast)
  | agg (typeName : Bytes) (fields : List (Bytes × Ast))
  | var (typeName : Bytes) (which : UInt32) (possibility : Bytes) (child : Ast)

mutual
/-- The `append_bytes` calls that append `a` under the label `context`. Sequence elements
are appended with the empty context `b""`. -/
def Ast.emit (context : Bytes) : Ast → Transcript
  | .primitive typename data => appendPrimitive context typename data
  | .none => appendNone context
  | .seq elems => appendSeqHeader context elems.length ++ emitElems elems
  | .agg typeName fields =>
    appendAggHeader context typeName ++ emitFields fields ++ appendAggCloser context typeName
  | .var typeName which possibility child =>
    appendVarHeader context typeName which ++ child.emit possibility

def emitElems : List Ast → Transcript
  | [] => []
  | a :: rest => a.emit [] ++ emitElems rest

def emitFields : List (Bytes × Ast) → Transcript
  | [] => []
  | (name, a) :: rest => a.emit name ++ emitFields rest
end

mutual
/-- Every sequence in the tree has fewer than `2 ^ 64` elements, as a `usize` length does. -/
def Ast.fits : Ast → Bool
  | .seq elems => decide (elems.length < 2 ^ 64) && elemsFit elems
  | .agg _ fields => fieldsFit fields
  | .var _ _ _ child => child.fits
  | .primitive _ _ => true
  | .none => true

def elemsFit : List Ast → Bool
  | [] => true
  | a :: rest => a.fits && elemsFit rest

def fieldsFit : List (Bytes × Ast) → Bool
  | [] => true
  | (_, a) :: rest => a.fits && fieldsFit rest
end

theorem emitElems_eq_flatMap (elems : List Ast) : emitElems elems = elems.flatMap (Ast.emit []) := by
  induction elems with
  | nil => rfl
  | cons a rest ih => simp [emitElems, ih]

theorem emitFields_eq_flatMap (fields : List (Bytes × Ast)) :
    emitFields fields = fields.flatMap (fun field => field.2.emit field.1) := by
  induction fields with
  | nil => rfl
  | cons field rest ih => simp [emitFields, ih]

theorem elemsFit_iff (elems : List Ast) : elemsFit elems = true ↔ ∀ a ∈ elems, a.fits = true := by
  induction elems with
  | nil => simp [elemsFit]
  | cons a rest ih => simp [elemsFit, ih]

theorem fieldsFit_iff (fields : List (Bytes × Ast)) :
    fieldsFit fields = true ↔ ∀ field ∈ fields, field.2.fits = true := by
  induction fields with
  | nil => simp [fieldsFit]
  | cons field rest ih => simp [fieldsFit, ih]

/-! ### `Digestible` impls for primitives -/

def uintName : Bytes := [0x75, 0x69, 0x6e, 0x74]

def bytesName : Bytes := [0x62, 0x79, 0x74, 0x65, 0x73]

/-- `impl Digestible for u64`: its little-endian bytes. Its `allow_omit` form is the default,
which omits nothing. -/
def u64Append (context : Bytes) (n : UInt64) : Transcript :=
  appendPrimitive context uintName (leBytes 8 n.toNat)

/-- `impl Digestible for &[u8]`, which `[u8; N]` and `Vec<u8>` forward to. -/
def bytesAppend (context data : Bytes) : Transcript :=
  appendPrimitive context bytesName data

/-! ### `Digestible` impls for compound types

Each impl is written over the emitter of its component types, as the generic Rust impls are. -/

/-- `impl Digestible for (&T, &U)`: an aggregate named `Tuple` with fields `0` and `1`. -/
def tupleAppend {T U : Type*} (appendT : Bytes → T → Transcript) (appendU : Bytes → U → Transcript)
    (context : Bytes) (value : T × U) : Transcript :=
  let tuple : Bytes := [0x54, 0x75, 0x70, 0x6c, 0x65]
  appendAggHeader context tuple ++ appendT [0x30] value.1 ++ appendU [0x31] value.2 ++
    appendAggCloser context tuple

def sliceAppend {T : Type*} (appendT : Bytes → T → Transcript) (context : Bytes) (elems : List T) :
    Transcript :=
  if elems.isEmpty then appendNone context
  else appendSeqHeader context elems.length ++ elems.flatMap (appendT [])

def sliceAppendAllowOmit {T : Type*} (appendT : Bytes → T → Transcript) (context : Bytes)
    (elems : List T) : Transcript :=
  if elems.isEmpty then [] else sliceAppend appendT context elems

def optionAppend {T : Type*} (appendT : Bytes → T → Transcript) (context : Bytes) :
    Option T → Transcript
  | Option.none => appendNone context
  | some value => appendT context value

def optionAppendAllowOmit {T : Type*} (appendOmitT : Bytes → T → Transcript) (context : Bytes) :
    Option T → Transcript
  | Option.none => []
  | some value => appendOmitT context value

/-! ### The impls emit ASTs -/

def tupleAst {T U : Type*} (astT : T → Ast) (astU : U → Ast) (value : T × U) : Ast :=
  .agg [0x54, 0x75, 0x70, 0x6c, 0x65] [([0x30], astT value.1), ([0x31], astU value.2)]

def sliceAst {T : Type*} (astT : T → Ast) (elems : List T) : Ast :=
  if elems.isEmpty then .none else .seq (elems.map astT)

def optionAst {T : Type*} (astT : T → Ast) : Option T → Ast
  | Option.none => .none
  | some value => astT value

section Lawful

variable {T U : Type*} {appendT : Bytes → T → Transcript} {appendU : Bytes → U → Transcript}
  {astT : T → Ast} {astU : U → Ast}

theorem tupleAppend_eq_emit (lawfulT : ∀ c x, appendT c x = (astT x).emit c)
    (lawfulU : ∀ c y, appendU c y = (astU y).emit c) (context : Bytes) (value : T × U) :
    tupleAppend appendT appendU context value = (tupleAst astT astU value).emit context := by
  simp [tupleAppend, tupleAst, Ast.emit, emitFields, lawfulT, lawfulU]

theorem sliceAppend_eq_emit (lawful : ∀ c x, appendT c x = (astT x).emit c) (context : Bytes)
    (elems : List T) : sliceAppend appendT context elems = (sliceAst astT elems).emit context := by
  unfold sliceAppend sliceAst
  split
  · rfl
  · simp only [Ast.emit, emitElems_eq_flatMap, List.flatMap_map, List.length_map]
    congr 1
    exact List.flatMap_congr (fun x _ => lawful [] x)

theorem optionAppend_eq_emit (lawful : ∀ c x, appendT c x = (astT x).emit c) (context : Bytes)
    (value : Option T) : optionAppend appendT context value = (optionAst astT value).emit context := by
  cases value with
  | none => rfl
  | some value => exact lawful context value

end Lawful

end MobileCoin.Digestible
