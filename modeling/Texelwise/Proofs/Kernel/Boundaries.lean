import Texelwise.Proofs.Kernel.ThreadEdits

/-!
# Token boundaries of the passes

A pass puts texts in the place of occurrences without anything between them and their neighbours.
For the passes that replace reads, fields and extents this joins no tokens and cuts none: the text
after the pass has the tokens before it, and in the place of each occurrence the tokens that its
substitute has alone.

* `Pattern.Splices`: a pass is of this kind on a text.
* `Pattern.splices_of_seamless`: it is if each substitute may stand for what it replaces.
* `splices_of_isIdentifier`: the passes for reads, fields and extents are, and a sample has the
  tokens of its indices as they were.
-/

namespace Texelwise

open Token

/-! ## Passes that join no tokens -/

namespace Pattern

/-- The pass over the text `x` succeeds, and the text after it has the tokens of `x` outside the
occurrences and for each occurrence the tokens that its substitute has alone. -/
def Splices (p : Pattern) (substitute : Occurrence → Text) (x : Text) : Prop :=
  ∃ pieces y, p.pieces x = .ok pieces ∧ Piece.tokensOf pieces = tokenize x ∧
    p.replaceAll substitute x = .ok y ∧ tokenize y = pieces.flatMap (Piece.splice substitute)

/-- A pass joins no tokens if each substitute may stand for what it replaces. -/
theorem splices_of_seamless {p : Pattern} (hp : p.Consumes = true) {substitute : Occurrence → Text}
    {x : Text} (h : ∀ us m, us <:+ tokenize x → p.match? us = some m →
      Seamless m.taken (substitute ⟨m.taken, m.captures⟩)) : p.Splices substitute x :=
  ⟨p.walk (tokenize x), _, pieces_eq_walk hp x, tokensOf_walk hp _,
    replaceAll_eq_walk hp substitute x, tokenize_emit_walk hp h⟩

end Pattern

/-! ## Reads, fields and extents -/

section

variable {name : Text} (hname : isIdentifier name = true)

include hname

theorem splices_bufferRead (kind : BufferKind) (x : Text) :
    (Pattern.bufferRead name kind.rank).Splices (fun o => sampleText name kind o.captures) x :=
  Pattern.splices_of_seamless rfl fun _ m _ hm =>
    seamless_sampleText (startsName_taken hname hm) name kind m.captures

theorem splices_field {f w : Text} (hf : isIdentifier f = true) (hw : isIdentifier w = true)
    (x : Text) : (Pattern.field name f).Splices (fun _ => w) x :=
  Pattern.splices_of_seamless rfl fun _ _ hus hm =>
    seamless_field hname hf hw (fun u hu => proper_tokenize u (hus.subset hu)) hm

/-- What is found of a read in a text has its indices as runs of tokens, and they are the indices
of the sample that stands for it, without the blanks around them. -/
theorem exists_tokenize_sampleText {kind : BufferKind} {x : Text} {pieces : List Piece}
    (hpieces : (Pattern.bufferRead name kind.rank).pieces x = .ok pieces) {o : Occurrence}
    (ho : .found o ∈ pieces) :
    ∃ tail blocks, IsRead name kind.rank o (word name) tail blocks ∧
      tokenize (sampleText name kind o.captures) =
        sampleTokens name kind (blocks.map trimBlanks) := by
  obtain rfl : (Pattern.bufferRead name kind.rank).walk (tokenize x) = pieces :=
    Except.ok.inj ((Pattern.pieces_eq_walk rfl x).symm.trans hpieces)
  obtain ⟨us, m, hus, hm, rfl⟩ := Pattern.match?_of_mem_walk ho
  have hproper : ∀ u ∈ us, u.Proper := fun u hu => proper_tokenize u (hus.subset hu)
  have hseparated : Separated m.taken := (separated_tokenize x).of_isInfix (isInfix_taken hus hm)
  obtain ⟨t, tail, blocks, hread⟩ := exists_isRead hproper hm
  obtain rfl := hread.eq_word hname fun u hu => hseparated.proper hu
  have hcaptures : m.captures = blocks.map textOf := hread.captures
  refine ⟨tail, blocks, hread, ?_⟩
  rw [hcaptures, tokenize_sampleText hname kind (hread.separatedBy hseparated)]

/-- One round over a text joins no tokens and cuts none, whether it replaces the reads of a buffer
by samples, a field of a buffer by its member or an extent of the output by its own, whatever
stands around them: outside the occurrences the tokens are the old ones, and in the place of each
occurrence are those that its substitute has alone. In a sample, these have the tokens of each index
as they were in the text, but for blanks at both ends. -/
theorem splices_of_isIdentifier (kind : BufferKind) (x : Text) :
    (Pattern.bufferRead name kind.rank).Splices (fun o => sampleText name kind o.captures) x ∧
      (∀ f ∈ kind.rank.fields,
        (Pattern.field name f).Splices (fun _ => bufferMemberName name f) x) ∧
      (∀ f ∈ extentFields,
        (Pattern.field threadWord f).Splices (fun _ => threadOutputName f) x) ∧
      ∀ pieces, (Pattern.bufferRead name kind.rank).pieces x = .ok pieces →
        ∀ o, .found o ∈ pieces → ∃ tail blocks,
          IsRead name kind.rank o (word name) tail blocks ∧
            tokenize (sampleText name kind o.captures) =
              sampleTokens name kind (blocks.map trimBlanks) := by
  refine ⟨splices_bufferRead hname kind x, fun f hf => ?_, fun f hf => ?_,
    fun pieces hpieces o ho => exists_tokenize_sampleText hname hpieces ho⟩
  · have hfield := isIdentifier_of_mem_extentFields (List.mem_of_mem_take hf)
    exact splices_field hname hfield
      (isIdentifier_bufferMemberName hname (all_of_isIdentifier hfield)) x
  · exact splices_field (by decide) (isIdentifier_of_mem_extentFields hf)
      (generated_threadOutputName hf).1 x

end

/-- A read with a point before it and a name right after it, with a blank around one index and a
field in the other. -/
theorem splices_of_isIdentifier_neighbours :
    isIdentifier "a".toList = true ∧
      ∃ y, (Pattern.bufferRead "a".toList .two).replaceAll
          (fun o => sampleText "a".toList ⟨.float, .two⟩ o.captures)
          ".a[ .5 ] [a.width]b".toList = .ok y ∧
        tokenize y = mark '.' :: (sampleTokens "a".toList ⟨.float, .two⟩
          [[⟨.number, ".5".toList⟩],
            [word "a".toList, mark '.', word "width".toList]] ++ [word "b".toList]) := by
  obtain ⟨⟨pieces, y, hpieces, -, hy, htokens⟩, -⟩ :=
    splices_of_isIdentifier (show isIdentifier "a".toList = true by decide) ⟨.float, .two⟩
      ".a[ .5 ] [a.width]b".toList
  have hscan := congrArg (·.toOption.map (·.flatMap (Piece.splice fun o =>
    sampleText "a".toList ⟨.float, .two⟩ o.captures))) hpieces
  refine ⟨by decide, y, hy, htokens.trans (Option.some.inj (hscan.symm.trans ?_))⟩
  decide +kernel

end Texelwise
