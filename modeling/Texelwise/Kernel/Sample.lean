import Texelwise.Kernel.Binding
import Texelwise.Pattern.Scan

/-!
# Reads of a buffer as texture samples

A thread program reads a buffer by subscripts, `name[x][y]`. In the shader a read is a texture
sample, and the rounds that replace the reads of a buffer go on until none is left: an index keeps
its text, so a read inside an index is left for a later round.

Every read has the opening brackets of its indices and at least one more, and the sample that stands
for it has none but those of the indices, if the name of the buffer has none. So every round takes
brackets away, and the rounds end.

* `sampleText`: the sample that stands for a read.
* `count_round_lt`: a round that finds a read takes brackets away.
* `sampleReads`: the rounds for one buffer.
-/

namespace Texelwise

namespace Pattern

/-- One subscript; it captures the index. -/
def subscript : Pattern := spaceOptional ++ mark '[' ++ group codeBlock ++ mark ']'

/-- So many subscripts. -/
def subscripts : Nat → Pattern
  | 0 => .nil
  | n + 1 => subscript ++ subscripts n

/-- A read of the buffer `name` of this rank; it captures the indices. -/
def bufferRead (name : Text) (rank : Rank) : Pattern := literal name ++ subscripts rank.toNat

end Pattern

/-! ## Samples -/

/-- The arguments, separated by a comma and a space. -/
def argumentList (arguments : List Text) : Text := ", ".toList.intercalate arguments

/-- The texture sample that reads the element of buffer `name` at these indices. A float is
decoded from the bytes of the texel. -/
def sampleText (name : Text) (kind : BufferKind) (indices : List Text) : Text :=
  let arguments := kind.companions.map (bufferMemberName name) ++ indices.map Text.trim
  let sample :=
    "textureLod(sampler2D(".toList ++ textureName name ++ ", ".toList ++ samplerName ++
      "), nc_select_".toList ++ kind.rank.label ++ '(' :: argumentList arguments ++
      "), 0.0)".toList
  match kind.element with
  | .float => "nc_decode(".toList ++ sample ++ [')']
  | .color => sample

/-! ## Brackets of a sample -/

section Count

variable {c : Char}

theorem count_intercalate {separator : Text} (h : c ∉ separator) (parts : List Text) :
    (separator.intercalate parts).count c = parts.flatten.count c := by
  induction parts with
  | nil => rfl
  | cons p parts ih =>
    cases parts with
    | nil => simp [List.intercalate]
    | cons q parts =>
      rw [List.intercalate_cons_cons, List.count_append, List.count_append,
        List.count_eq_zero_of_not_mem h, Nat.add_zero, ih,
        List.flatten_cons (L := q :: parts), List.count_append]

theorem count_trim_le (t : Text) : (Text.trim t).count c ≤ t.count c := by
  have hfront := (List.dropWhile_sublist Text.isBlank (l := t)).count_le c
  have hback := (List.dropWhile_sublist Text.isBlank
    (l := (t.dropWhile Text.isBlank).reverse)).count_le c
  rw [Text.trim, List.count_reverse]
  rw [List.count_reverse] at hback
  exact Nat.le_trans hback hfront

theorem count_flatten_map_trim_le (parts : List Text) :
    (parts.map Text.trim).flatten.count c ≤ parts.flatten.count c := by
  induction parts with
  | nil => exact Nat.le_refl _
  | cons p parts ih =>
    rw [List.map_cons, List.flatten_cons, List.flatten_cons, List.count_append, List.count_append]
    exact Nat.add_le_add (count_trim_le p) ih

theorem not_mem_bufferMemberName {name member : Text} (hname : '[' ∉ name)
    (hmember : '[' ∉ member) : '[' ∉ bufferMemberName name member := by
  have hprefix : '[' ∉ "nc_uniform_".toList := by decide +kernel
  have hseparator : '[' ≠ '_' := by decide
  unfold bufferMemberName
  rw [List.mem_append, List.mem_append, List.mem_cons]
  rintro ((h | h) | h | h)
  · exact hprefix h
  · exact hname h
  · exact hseparator h
  · exact hmember h

/-- The arguments of a texture sample have no brackets but those of the indices. -/
theorem count_arguments_le {name : Text} (hname : '[' ∉ name) (kind : BufferKind)
    (indices : List Text) :
    (argumentList (kind.companions.map (bufferMemberName name) ++
      indices.map Text.trim)).count '[' ≤ indices.flatten.count '[' := by
  have hmembers : ∀ m ∈ kind.companions, '[' ∉ m := by
    obtain ⟨e, r⟩ := kind
    cases e <;> cases r <;> decide +kernel
  have hnames : (kind.companions.map (bufferMemberName name)).flatten.count '[' = 0 := by
    refine List.count_eq_zero_of_not_mem fun hmem => ?_
    obtain ⟨_, hpart, hbracket⟩ := List.mem_flatten.mp hmem
    obtain ⟨m, hm, rfl⟩ := List.mem_map.mp hpart
    exact not_mem_bufferMemberName hname (hmembers m hm) hbracket
  rw [argumentList, count_intercalate (by decide), List.flatten_append, List.count_append, hnames,
    Nat.zero_add]
  exact count_flatten_map_trim_le indices

/-- A texture sample has no brackets but those of its indices. -/
theorem count_sampleText_le {name : Text} (hname : '[' ∉ name) (kind : BufferKind)
    (indices : List Text) :
    (sampleText name kind indices).count '[' ≤ indices.flatten.count '[' := by
  have harguments := count_arguments_le hname kind indices
  have htexture : (textureName name).count '[' = 0 :=
    List.count_eq_zero_of_not_mem (not_mem_bufferMemberName hname (by decide +kernel))
  have hlabel : kind.rank.label.count '[' = 0 := by cases kind.rank <;> decide
  have hopening : "textureLod(sampler2D(".toList.count '[' = 0 := by decide +kernel
  have hcomma : ", ".toList.count '[' = 0 := by decide +kernel
  have hsampler : samplerName.count '[' = 0 := by decide +kernel
  have hselect : "), nc_select_".toList.count '[' = 0 := by decide +kernel
  have hclosing : "), 0.0)".toList.count '[' = 0 := by decide +kernel
  have hdecode : "nc_decode(".toList.count '[' = 0 := by decide +kernel
  have hparenthesis : List.count '[' ['(', ')'] = 0 := by decide +kernel
  unfold sampleText
  cases kind.element with
  | color =>
    simp only [List.count_append, List.count_cons, List.count_nil] at hparenthesis ⊢
    omega
  | float =>
    simp only [List.count_append, List.count_cons, List.count_nil] at hparenthesis ⊢
    omega

end Count

/-! ## Brackets of a read -/

/-- Subscripts have the brackets of their indices and one more for each. -/
theorem Pattern.count_subscripts {n : Nat} {ts : List Token} {m : Match}
    (h : (Pattern.subscripts n).match? ts = some m) :
    m.captures.flatten.count '[' + n ≤ (Token.textOf m.taken).count '[' := by
  induction n generalizing ts m with
  | zero =>
    cases h
    exact Nat.le_refl _
  | succ n ih =>
    obtain ⟨gap, ts₁, m₁, -, h₁, rfl⟩ := exists_of_match?_atom h
    obtain ⟨opening, ts₂, m₂, hopening, h₂, rfl⟩ := exists_of_match?_atom h₁
    obtain ⟨i, m₃, hi, h₃, rfl⟩ := exists_of_match?_capture h₂
    obtain ⟨block, ts₃, m₄, -, hnil, rfl⟩ := exists_of_match?_atom hi
    cases hnil
    obtain ⟨closing, ts₄, m₅, -, h₄, rfl⟩ := exists_of_match?_atom h₃
    have hbracket : Token.textOf opening = ['['] := by
      obtain ⟨t, rfl, ht⟩ := Atom.exists_of_split?_literal hopening
      simpa using ht
    have hrest := ih h₄
    simp only [Token.textOf_append, List.count_append, hbracket, List.count_cons_self,
      List.count_nil, List.append_nil, List.nil_append, List.flatten_cons] at hrest ⊢
    omega

/-- A read has the brackets of its indices and at least one more. -/
theorem Pattern.count_bufferRead {name : Text} {rank : Rank} {ts : List Token} {m : Match}
    (h : (Pattern.bufferRead name rank).match? ts = some m) :
    m.captures.flatten.count '[' < (Token.textOf m.taken).count '[' := by
  obtain ⟨run, left, n, -, hn, rfl⟩ := exists_of_match?_atom h
  have hcount := count_subscripts hn
  have hpos := rank.toNat_pos
  rw [Token.textOf_append, List.count_append]
  show n.captures.flatten.count '[' < _
  omega

/-! ## Rounds -/

/-- Where every occurrence has more brackets than its substitute, each one takes a bracket away. -/
theorem Piece.count_emit_le {substitute : Occurrence → Text} {pieces : List Piece}
    (h : ∀ o, .found o ∈ pieces → (substitute o).count '[' < o.text.count '[') :
    (pieces.flatMap (emit substitute)).count '[' + (pieces.filterMap occurrence?).length ≤
      (Token.textOf (tokensOf pieces)).count '[' := by
  induction pieces with
  | nil => exact Nat.le_refl _
  | cons piece pieces ih =>
    have hrest := ih fun o ho => h o (List.mem_cons_of_mem _ ho)
    rw [List.flatMap_cons, List.count_append]
    cases piece with
    | kept t =>
      show t.text.count '[' + _ + _ ≤ (t.text ++ Token.textOf (tokensOf pieces)).count '['
      rw [List.count_append, List.filterMap_cons_none rfl]
      omega
    | found o =>
      have htext : Token.textOf (tokensOf (.found o :: pieces)) =
          o.text ++ Token.textOf (tokensOf pieces) :=
        Token.textOf_append o.taken _
      have hless := h o List.mem_cons_self
      have hone : occurrence? (.found o) = some o := rfl
      show (substitute o).count '[' + _ + _ ≤ _
      rw [htext, List.count_append, List.filterMap_cons_some hone, List.length_cons]
      omega

/-- A round that finds a read takes brackets away. -/
theorem count_round_lt {name : Text} (hname : '[' ∉ name) (kind : BufferKind) {code : Text}
    {pieces : List Piece} (h : (Pattern.bufferRead name kind.rank).pieces code = .ok pieces)
    (hsome : pieces.filterMap Piece.occurrence? ≠ []) :
    (pieces.flatMap (Piece.emit fun o => sampleText name kind o.captures)).count '[' <
      code.count '[' := by
  have hcount := @Piece.count_emit_le (fun o => sampleText name kind o.captures) pieces
    fun o ho => by
      obtain ⟨us, m, -, hm, rfl⟩ := Pattern.match?_of_mem_scan h ho
      exact Nat.lt_of_le_of_lt (count_sampleText_le hname kind m.captures)
        (Pattern.count_bufferRead hm)
  have hpos := List.length_pos_iff.mpr hsome
  rw [Pattern.tokensOf_scan h, textOf_tokenize] at hcount
  omega

/-- Replaces the reads of the buffer `name` until none is left. -/
def sampleReads (name : Text) (hname : '[' ∉ name) (kind : BufferKind) (code : Text) :
    Except PatternError Text :=
  match _h : (Pattern.bufferRead name kind.rank).pieces code with
  | .error e => .error e
  | .ok pieces =>
    if _hnone : pieces.filterMap Piece.occurrence? = [] then .ok code
    else
      sampleReads name hname kind
        (pieces.flatMap (Piece.emit fun o => sampleText name kind o.captures))
termination_by code.count '['
decreasing_by exact count_round_lt hname kind _h _hnone

section

variable {name : Text} {hname : '[' ∉ name} {kind : BufferKind} {code : Text} {pieces : List Piece}
  (h : (Pattern.bufferRead name kind.rank).pieces code = .ok pieces)

include h

theorem sampleReads_of_none (hnone : pieces.filterMap Piece.occurrence? = []) :
    sampleReads name hname kind code = .ok code := by
  rw [sampleReads]
  split
  · rename_i he
    cases h.symm.trans he
  · rename_i found hfound
    obtain rfl : pieces = found := Except.ok.inj (h.symm.trans hfound)
    rw [dif_pos hnone]

theorem sampleReads_of_some (hsome : pieces.filterMap Piece.occurrence? ≠ []) :
    sampleReads name hname kind code = sampleReads name hname kind
      (pieces.flatMap (Piece.emit fun o => sampleText name kind o.captures)) := by
  rw [sampleReads]
  split
  · rename_i he
    cases h.symm.trans he
  · rename_i found hfound
    obtain rfl : pieces = found := Except.ok.inj (h.symm.trans hfound)
    rw [dif_neg hsome]

end

end Texelwise
