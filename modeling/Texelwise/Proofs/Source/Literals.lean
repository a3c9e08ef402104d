import Texelwise.Proofs.Expansion.Operands
import Texelwise.Proofs.Kernel.BufferEdits
import Texelwise.Proofs.Pattern.Cuts
import Texelwise.Proofs.Source.Closure
import Texelwise.Proofs.Token.Hexadecimal

/-!
# Operands behind hexadecimal literals

In a sum that starts with a hexadecimal literal the operand behind the sign is replaced like
anywhere else, as long as the last digit of the literal is neither `e` nor `E`. After these the sign
and the name behind it go into the literal, and nothing is replaced.

* `WrittenProgram.infix_fragment`: an operand behind a number and a mark in a compiled program.
* `Pattern.avoids_sign`: the passes for fields, extents and writes take no sign.
* `operand_of_literal`: the tokens behind a literal and what becomes of them.
* `operand_in_literal`: a program in which nothing becomes of them.
-/

namespace Texelwise

open Token

theorem isInfix_textOf {us ts : List Token} (h : us <:+: ts) : textOf us <:+: textOf ts := by
  obtain ⟨pre, post, rfl⟩ := h
  exact ⟨textOf pre, textOf post, by simp⟩

namespace WrittenProgram

variable {p : WrittenProgram}

/-- The image of the body stands in the fragment shader. -/
theorem infix_fragment_of_image {us : List Token} (h : us <:+: p.allRules.image (tokenize p.body)) :
    textOf us <:+: p.script.fragment := by
  have hbody : textOf us <:+: p.imageText :=
    (isInfix_textOf h).trans ((List.suffix_append _ _).trans
      ((List.suffix_append _ _).trans (List.suffix_append _ _))).isInfix
  refine hbody.trans ?_
  show p.imageText <:+: fragmentText _ _ _
  rw [fragmentText_eq_append]
  exact ⟨fragmentFront p.header.signature p.table ++ ['\n'],
    '\n' :: Shader.threadMain p.header.signature, by simp⟩

/-- Behind a number and a mark the body of a compiled program has the replacement of the site that
stands there. -/
theorem infix_fragment (hp : p.Regular) {source : Text}
    (hsource : Text.stripComments source = p.text) {script : Script}
    (h : compile source = .ok script) {n z w : Token} (hn : n.kind = .number)
    (hz : z.kind = .punct) (hclose : z ≠ mark ']') (hw : w.kind = .ident) {site : Site}
    {xs tail rest : List Token} (hs : p.interface.rules.Stands w site tail)
    (hbody : tokenize p.body = xs ++ n :: z :: (w :: tail ++ rest)) :
    n.text ++ (z.text ++ p.interface.rules.expand (w :: tail)) <:+: script.fragment := by
  have hproper : ∀ u ∈ xs ++ n :: z :: (w :: tail ++ rest), u.Proper := by
    rw [← hbody]
    exact proper_tokenize
  have hstands : p.allRules.Stands w site tail := by
    have hsite := site?_allRules hp w (tail ++ [])
    rw [Rules.site?_append hw hs] at hsite
    obtain ⟨-, tail', hs', heq⟩ := Rules.site?_eq_some_iff.mp hsite
    rw [List.append_nil, List.append_nil] at heq
    rwa [heq]
  have himage := Rules.infix_image (sane_allRules hp) hn hz hclose hw hstands hproper
  rw [← hbody] at himage
  have htext := infix_fragment_of_image himage
  rw [eq_script_of_compile hp hsource h]
  rwa [textOf_cons, textOf_cons, Rules.textOf_image (sane_allRules hp)
    (fun u hu => hproper u (by simp at hu ⊢; tauto)), expand_allRules hp] at htext

end WrittenProgram

/-! ## Passes -/

/-- The patterns of the passes for fields, extents and writes take no sign. -/
theorem Pattern.avoids_sign {s : Char} (hs : IsSign s) {p : Pattern}
    (hp : p = .output ∨ ∃ name f, name ≠ [s] ∧ f ∈ extentFields ∧ p = .field name f) :
    p.Consumes = true ∧ p.Avoids s = true := by
  rcases hp with rfl | ⟨name, f, hname, hf, rfl⟩
  · rcases hs with rfl | rfl <;> decide
  · have hfield : f ≠ [s] := by
      rintro rfl
      have hidentifier := isIdentifier_of_mem_extentFields hf
      rcases hs with rfl | rfl <;> exact absurd hidentifier (by decide)
    have hpoint : ['.'] ≠ [s] := fun h => hs.ne_point (List.cons_eq_cons.mp h).1.symm
    refine ⟨rfl, ?_⟩
    simp [field, literal, Pattern.mark, spaceOptional, Pattern.Avoids, Atom.Avoids, hname, hfield,
      hpoint]

/-! ## Literals -/

/-- Behind a hexadecimal literal a sign is a token of its own exactly if the last digit is neither
`e` nor `E`. Then the tokens and the passes go on behind the sign as if nothing stood before it, and
in every regular program that compiles a read, a field, an extent or a write that stands there is
replaced by what stands for it anywhere. -/
theorem operand_of_literal {h : Text} {s : Char} (hh : IsHexadecimal h) (hs : IsSign s) :
    (∀ t, (tokenize (h ++ s :: t)).take 2 = [number h, mark s] ↔ ¬EndsInExponent h) ∧
    (¬EndsInExponent h → ∀ x t, tokenize (x ++ h) = tokenize x ++ [number h] →
      tokenize (x ++ (h ++ s :: t)) = tokenize x ++ number h :: mark s :: tokenize t ∧
      (∀ p : Pattern,
        (p = .output ∨ ∃ name f, name ≠ [s] ∧ f ∈ extentFields ∧ p = .field name f) →
        ∀ substitute, ∃ out more, p.replaceAll substitute (x ++ h) = .ok out ∧
          p.replaceAll substitute t = .ok more ∧
          p.replaceAll substitute (x ++ (h ++ s :: t)) = .ok (out ++ s :: more)) ∧
      ∀ (p : WrittenProgram) source script w site tail rest, p.Regular →
        Text.stripComments source = p.text → compile source = .ok script →
        p.body = x ++ (h ++ s :: t) → tokenize t = w :: tail ++ rest → w.kind = .ident →
        p.interface.rules.Stands w site tail →
        h ++ s :: p.interface.rules.expand (w :: tail) <:+: script.fragment) := by
  refine ⟨take_tokenize_sign_iff hh hs, fun hend x t hx => ?_⟩
  have htokens := tokenize_append_sign hh hs hend hx t
  refine ⟨htokens, fun p hp substitute => ?_, ?_⟩
  · obtain ⟨hconsumes, havoids⟩ := Pattern.avoids_sign hs hp
    refine Pattern.replaceAll_append_mark hconsumes havoids ?_ substitute
    rw [htokens, hx, List.append_assoc]
    rfl
  · intro p source script w site tail rest hp hsource hcompile hbody ht hw hstands
    have hclose : mark s ≠ mark ']' := by rcases hs with rfl | rfl <;> decide
    have hoperand : tokenize p.body =
        tokenize x ++ number h :: mark s :: (w :: tail ++ rest) := by rw [hbody, htokens, ht]
    exact WrittenProgram.infix_fragment hp hsource hcompile rfl rfl hclose hw hstands hoperand

/-- A program whose output is a sum of a literal and an extent. -/
def literalSum (literal : Text) : WrittenProgram where
  declarations := []
  gap := []
  header := ⟨[⟨[], .float, []⟩], [' '], [' '], [⟨[], [' '], ['x'], []⟩]⟩
  body := " \x7b thread[0] = float(".toList ++ (literal ++ "+thread.width); \x7d".toList)

theorem exists_compile_literalSum :
    (∃ script, compile (literalSum "0xf".toList).text = .ok script) ∧
      ∃ script, compile (literalSum "0xe".toList).text = .ok script := by
  have hf : (compile (literalSum "0xf".toList).text).toOption.isSome = true := by decide +kernel
  have he : (compile (literalSum "0xe".toList).text).toOption.isSome = true := by decide +kernel
  obtain ⟨script, hscript⟩ := Option.isSome_iff_exists.mp hf
  obtain ⟨script', hscript'⟩ := Option.isSome_iff_exists.mp he
  exact ⟨⟨script, ok_of_toOption hscript⟩, script', ok_of_toOption hscript'⟩

/-- Behind `0xf` the sign is a token and the extent is replaced. -/
theorem operand_of_literal_extent :
    (tokenize "0xf+thread.width".toList).take 2 = [number "0xf".toList, mark '+'] ∧
      ∃ script, compile (literalSum "0xf".toList).text = .ok script ∧
        "0xf+nc_thread_output_width".toList <:+: script.fragment := by
  obtain ⟨htake, hoperand⟩ := operand_of_literal (h := "0xf".toList) (s := '+')
    ⟨['f'], rfl, by decide, List.forall_mem_singleton.mpr (by decide)⟩ (.inl rfl)
  have hend : ¬EndsInExponent "0xf".toList := by decide
  refine ⟨(htake _).mpr hend, ?_⟩
  obtain ⟨script, hscript⟩ := exists_compile_literalSum.1
  refine ⟨script, hscript, ?_⟩
  have hfragment := (hoperand hend " \x7b thread[0] = float(".toList
    "thread.width); \x7d".toList (by decide +kernel)).2.2 (literalSum "0xf".toList) _ script
    (word threadWord) (.word (threadOutputName "width".toList)) [mark '.', word "width".toList]
    (tokenize "); \x7d".toList) (by decide +kernel) (by decide +kernel) hscript rfl
    (by decide +kernel) rfl (.field .none .none rfl (by decide) (by decide +kernel))
  have hexpand : (literalSum "0xf".toList).interface.rules.expand
      [word threadWord, mark '.', word "width".toList] = threadOutputName "width".toList := by
    decide +kernel
  rwa [hexpand] at hfragment

/-- Behind `0xe` the sign and the extent go into the literal, and the extent is not replaced. -/
theorem operand_in_literal :
    IsHexadecimal "0xe".toList ∧ IsSign '+' ∧
      (tokenize "0xe+thread.width".toList).take 2 ≠ [number "0xe".toList, mark '+'] ∧
      ∃ script, compile (literalSum "0xe".toList).text = .ok script ∧
        "0xe+thread.width".toList <:+: script.fragment := by
  obtain ⟨script, hscript⟩ := exists_compile_literalSum.2
  have hregular : (literalSum "0xe".toList).Regular := by decide +kernel
  have hsource : Text.stripComments (literalSum "0xe".toList).text =
      (literalSum "0xe".toList).text := by decide +kernel
  have himage : [number "0xe+thread.width".toList] <:+:
      (literalSum "0xe".toList).allRules.image (tokenize (literalSum "0xe".toList).body) := by
    decide +kernel
  have hfragment := WrittenProgram.infix_fragment_of_image himage
  rw [← WrittenProgram.eq_script_of_compile hregular hsource hscript] at hfragment
  have hhex : IsHexadecimal "0xe".toList :=
    ⟨['e'], rfl, by decide, List.forall_mem_singleton.mpr (by decide)⟩
  exact ⟨hhex, .inl rfl, by decide +kernel, script, hscript, hfragment⟩

end Texelwise
