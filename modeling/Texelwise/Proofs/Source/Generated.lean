import Texelwise.Proofs.Expansion.Merge
import Texelwise.Proofs.Expansion.Words
import Texelwise.Proofs.Program.Block
import Texelwise.Proofs.Text.Lines
import Texelwise.Proofs.Text.Literal

/-!
# Declarations of generated names

The compiler puts names that start with `nc_` into a program, and other text of the fragment shader
declares them.

* `Resolved`: a word has a property if it starts like a generated name.
* `Declares`: how a generated name is declared; `Declared`: it is, in the shader of a script.
* `Declares.declared`: all declarations stand in the shader, if those of textures stand in the text
  of the program.
-/

namespace Texelwise

open Token

/-! ## Generated names -/

/-- If the word starts like a generated name, it has the property. -/
def Resolved (D : Text → Prop) (w : Text) : Prop := "nc_".toList <+: w → D w

theorem lenient_resolved {D : Text → Prop} : Lenient (Resolved D) := by
  refine ⟨fun c h => ?_, fun u hu hspace h => ?_⟩
  · have hlength := h.length_le
    exact absurd hlength (by simp)
  · have hn : 'n' ∈ u.text := h.subset (by decide)
    have hblank := hu.isBlank_eq hn
    rw [isSpace, decide_eq_true hspace] at hblank
    exact absurd hblank (by decide)

theorem resolved_of_not_generated {D : Text → Prop} {w : Text} (h : ¬ "nc_".toList <+: w) :
    Resolved D w :=
  fun hnc => absurd hnc h

/-- Every generated name has an underscore. -/
theorem only_resolved_of_not_mem {D : Text → Prop} {x : Text} (h : '_' ∉ x) :
    Only (Resolved D) x :=
  fun _ hu hnc => absurd (mem_of_mem_tokenize hu (hnc.subset (by decide))) h

theorem Token.Proper.kind_of_generated {t : Token} (ht : t.Proper) (h : "nc_".toList <+: t.text) :
    t.kind = .ident := by
  obtain ⟨c, more, htext, hkind, -⟩ := ht
  obtain ⟨rest, hrest⟩ := h
  rw [htext] at hrest
  obtain ⟨rfl, -⟩ := List.cons.inj hrest
  rw [← hkind, TokenKind.ofStart_of_isAlpha (by decide)]

/-! ## Declarations -/

/-- The line that declares the sampler. -/
def samplerLine : Text :=
  "layout(set = 0, binding = ".toList ++ Text.ofNat samplerBinding ++
    ") uniform sampler ".toList ++ samplerName ++ ";\n".toList

/-- The line that declares the register of an output. -/
def registerLine (index : Nat) : Text :=
  "layout(location = ".toList ++ Text.ofNat index ++ ") out vec4 ".toList ++
    outputRegister index ++ ";\n".toList

/-- The line that opens the function for decoding. -/
def decodeLine : Text := "float nc_decode(vec4 rgba) \x7b\n".toList

/-- The start of the function that finds the texture coordinates for a rank. -/
def selectLine (r : Rank) : Text :=
  "vec2 nc_select_".toList ++ r.label ++ "(int textureWidth, int textureHeight, ".toList

/-- How a generated name is declared in the fragment shader of a script around the program text
`code`: by the text `line`, in the part `part` of the shader. -/
inductive Declares (script : Script) (code : Text) : (name line part : Text) → Prop
  /-- A built-in member of the uniform block. -/
  | builtin {m : BlockMember} (hm : m ∈ script.bindings.builtins) :
      Declares script code m.name (BindingTable.memberText m) script.bindings.uniformText
  /-- A companion of a declared buffer of a kind that has it, as a member of the uniform block. -/
  | companion {s : UniformSlot} {kind : BufferKind} {f : Text} {m : BlockMember}
      (hs : s ∈ script.bindings.slots) (hkind : s.declaration.type = .buffer kind)
      (hf : f ∈ kind.companions) (hm : m ∈ s.members) (hname : m.name = bufferMemberName s.name f) :
      Declares script code m.name (BindingTable.memberText m) script.bindings.uniformText
  /-- The texture of a declared buffer, in the place of its declaration. -/
  | texture {s : UniformSlot} {kind : BufferKind} (hs : s ∈ script.bindings.slots)
      (hkind : s.declaration.type = .buffer kind) :
      Declares script code (textureName s.name) s.declarationText code
  | sampler : Declares script code samplerName samplerLine script.bindings.uniformText
  /-- The register of an output that the thread has. -/
  | register {i : Nat} (hi : i < script.thread.outputs.length) :
      Declares script code (outputRegister i) (registerLine i)
        (Shader.outputRegisters script.thread)
  | decode : Declares script code "nc_decode".toList decodeLine (Shader.codec ByteOrder.host)
  | select (r : Rank) : Declares script code ("nc_select_".toList ++ r.label) (selectLine r)
      Shader.selectFunctions

/-- A name is declared in the fragment shader of a script. -/
def Declared (script : Script) (code name : Text) : Prop :=
  ∃ line part, Declares script code name line part ∧ line <:+: part ∧ part <:+: script.fragment

/-! ## Texts in texts -/

namespace BindingTable

variable (t : BindingTable)

theorem uniformText_eq_append :
    t.uniformText = blockOpening ++ (t.members.flatMap memberText ++ blockClosing) := by
  have hassoc : ∀ x a b c d e f : Text,
      x ++ a ++ b ++ c ++ d ++ e ++ f = x ++ (a ++ (b ++ c ++ d ++ e ++ f)) :=
    fun x a b c d e f => by simp only [List.append_assoc]
  unfold uniformText blockOpening blockClosing
  exact hassoc _ _ _ _ _ _ _

variable {t}

theorem memberText_infix {m : BlockMember} (h : m ∈ t.members) : memberText m <:+: t.uniformText :=
  (infix_flatMap h).trans ⟨blockOpening, blockClosing, by
    rw [uniformText_eq_append, List.append_assoc]⟩

theorem samplerLine_infix : samplerLine <:+: t.uniformText := by
  have hclosing : blockClosing = "\x7d;\n".toList ++ samplerLine := by
    unfold blockClosing samplerLine
    simp only [List.append_assoc]
  rw [uniformText_eq_append, hclosing, ← List.append_assoc, ← List.append_assoc]
  exact (List.suffix_append _ _).isInfix

end BindingTable

set_option maxRecDepth 20000 in
theorem decodeLine_infix (order : ByteOrder) : decodeLine <:+: Shader.codec order := by
  unfold Shader.codec
  refine .trans ?_ (List.prefix_append _ _).isInfix
  refine .trans ?_ (List.prefix_append _ _).isInfix
  refine .trans ?_ (List.prefix_append _ _).isInfix
  refine .trans ?_ (List.prefix_append _ _).isInfix
  exact infix_toList rfl (by decide +kernel)

set_option maxRecDepth 20000 in
theorem selectLine_infix (r : Rank) : selectLine r <:+: Shader.selectFunctions := by
  cases r <;> exact infix_toList rfl (by decide +kernel)

/-- The shader text before the program text. -/
def fragmentFront (thread : ThreadSignature) (table : BindingTable) : Text :=
  ['\n'].intercalate
    [Shader.version, table.uniformText, Shader.fragmentInputs, Shader.outputRegisters thread,
      Shader.integerMod, Shader.codec ByteOrder.host, Shader.selectFunctions]

theorem fragmentText_eq_append (thread : ThreadSignature) (table : BindingTable) (code : Text) :
    fragmentText thread table code =
      fragmentFront thread table ++ '\n' :: (code ++ '\n' :: Shader.threadMain thread) := by
  have hsplit : ∀ a b c d e f g x y : Text, ['\n'].intercalate [a, b, c, d, e, f, g, x, y] =
      ['\n'].intercalate [a, b, c, d, e, f, g] ++ '\n' :: (x ++ '\n' :: y) := by
    intros
    simp [List.intercalate]
  exact hsplit _ _ _ _ _ _ _ _ _

/-- The shader text determines the program text in it. -/
theorem fragmentText_injective {thread : ThreadSignature} {table : BindingTable} {code code' : Text}
    (h : fragmentText thread table code = fragmentText thread table code') : code = code' := by
  rw [fragmentText_eq_append, fragmentText_eq_append] at h
  have hback := (List.cons.inj (List.append_cancel_left h)).2
  exact List.append_cancel_right hback

/-- Every declaration stands in its part of the shader. -/
theorem Declares.declared {script : Script} {code name line part : Text}
    (h : Declares script code name line part)
    (hfragment : script.fragment = fragmentText script.thread script.bindings code)
    (htextures : ∀ s ∈ script.bindings.slots, s.declarationText <:+: code) :
    Declared script code name := by
  refine ⟨line, part, h, ?_, ?_⟩
  · cases h with
    | builtin hm => exact BindingTable.memberText_infix (List.mem_append_left _ hm)
    | companion hs _ _ hm =>
      exact BindingTable.memberText_infix
        (List.mem_append_right _ (List.mem_flatMap.mpr ⟨_, hs, hm⟩))
    | texture hs => exact htextures _ hs
    | sampler => exact BindingTable.samplerLine_infix
    | register hi => exact infix_flatMap (f := registerLine) (List.mem_range.mpr hi)
    | decode => exact decodeLine_infix _
    | select r => exact selectLine_infix r
  · rw [hfragment]
    refine Text.infix_intercalate ?_
    cases h <;> simp

end Texelwise
