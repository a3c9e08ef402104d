import Texelwise.Token.Basic

/-!
# Splitting text into tokens

Each token takes its first character and then as many more as its kind allows.

* `TokenKind.run`: the longest continuation of a token, and what is left.
* `tokenize`: the tokens of a text; `textOf_tokenize` says that nothing is lost.
-/

namespace Texelwise

namespace TokenKind

/-- The longest continuation of a token whose last character is `before`, and the text after it. -/
def run (kind : TokenKind) : Char → Text → Text × Text
  | _, [] => ([], [])
  | before, c :: rest =>
    if kind.continues before c then
      let (more, left) := kind.run c rest
      (c :: more, left)
    else ([], c :: rest)

/-- A continuation and the text after it make up the whole text. -/
theorem run_append (kind : TokenKind) (before : Char) (t : Text) :
    (kind.run before t).1 ++ (kind.run before t).2 = t := by
  induction t generalizing before with
  | nil => rfl
  | cons c rest ih =>
    unfold run
    split
    · simp [ih c]
    · rfl

theorem length_run_le (kind : TokenKind) (before : Char) (t : Text) :
    (kind.run before t).2.length ≤ t.length := by
  have h := congrArg List.length (run_append kind before t)
  rw [List.length_append] at h
  omega

/-- All of a continuation belongs to the token. -/
theorem exists_continues_of_mem_run {kind : TokenKind} {before : Char} {t : Text} {c : Char}
    (h : c ∈ (kind.run before t).1) : ∃ b, kind.continues b c = true := by
  induction t generalizing before with
  | nil => cases h
  | cons d rest ih =>
    unfold run at h
    split at h
    · rename_i hd
      rcases List.mem_cons.mp h with rfl | h
      · exact ⟨before, hd⟩
      · exact ih h
    · cases h

end TokenKind

/-- The tokens of a text, each as long as its kind allows. -/
def tokenize : Text → List Token
  | [] => []
  | c :: rest =>
    let kind := TokenKind.ofStart c rest
    ⟨kind, c :: (kind.run c rest).1⟩ :: tokenize (kind.run c rest).2
termination_by t => t.length
decreasing_by
  have := TokenKind.length_run_le (TokenKind.ofStart c rest) c rest
  simp only [List.length_cons]
  omega

@[simp] theorem tokenize_nil : tokenize [] = [] := by
  simp [tokenize]

/-- The token texts, put together, are the text. -/
@[simp] theorem textOf_tokenize (t : Text) : Token.textOf (tokenize t) = t := by
  fun_induction tokenize t with
  | case1 => rfl
  | case2 c rest kind ih =>
    rw [Token.textOf_cons, ih, List.cons_append, TokenKind.run_append]

/-- No identifier and no number has a bracket. -/
theorem not_mem_of_mem_tokenize {x : Text} {t : Token} (h : t ∈ tokenize x)
    (hkind : t.kind = .ident ∨ t.kind = .number) : '[' ∉ t.text := by
  fun_induction tokenize x with
  | case1 => cases h
  | case2 c rest kind ih =>
    rcases List.mem_cons.mp h with rfl | h
    · intro hmem
      rcases List.mem_cons.mp hmem with rfl | hmem
      · have hpunct : TokenKind.ofStart '[' rest = .punct := by
          simp [TokenKind.ofStart]
          decide
        rcases hkind with hkind | hkind <;> cases hpunct.symm.trans hkind
      · obtain ⟨b, hb⟩ := TokenKind.exists_continues_of_mem_run hmem
        have hword : isWordChar '[' = false := by decide
        rcases hkind with hkind | hkind <;> change kind = _ at hkind <;>
          simp [hkind, TokenKind.continues, hword] at hb
    · exact ih h

end Texelwise
