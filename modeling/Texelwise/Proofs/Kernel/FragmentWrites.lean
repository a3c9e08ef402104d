import Texelwise.Proofs.Kernel.ThreadEdits
import Texelwise.Proofs.Source.Generated
import Texelwise.Proofs.Text.Literal

/-!
# Writes in the fragment shader

The text that the fragment shader has around the program has no brackets. It ends with a brace and
line breaks before the program and starts with a line break after it, so no token goes from the
program into a write.

* `infix_or_of_not_mem`, `infix_concat_of_not_mem`: windows and marks that they do not go beyond.
* `bracket_not_mem_uniformText` and so on: the parts of the shader have no closing bracket.
* `mem_hits_fragmentText`: the writes in the fragment shader stand in the program text.
-/

namespace Texelwise

open Token

/-! ## Windows and marks -/

/-- A window stands on one side of a token that it does not have. -/
theorem infix_or_of_not_mem {m : Token} {w xs ys : List Token} (hm : m ∉ w)
    (h : w <:+: xs ++ m :: ys) : w <:+: xs ∨ w <:+: ys := by
  rcases infix_append_cases h with h | ⟨s, hs, -, hw⟩
  · rcases List.infix_cons_iff.mp h with h | h
    · have hnil : w <+: [] := prefix_of_not_mem hm h
      rw [List.prefix_nil.mp hnil]
      exact .inr List.nil_infix
    · exact .inr h
  · exact .inl ((prefix_of_not_mem hm hw).isInfix.trans hs.isInfix)

/-- A window with a last token does not go beyond the last place of this token. -/
theorem infix_concat_of_not_mem {m : Token} {w xs ys : List Token} (hm : m ∉ ys)
    (h : w ++ [m] <:+: xs ++ m :: ys) : w ++ [m] <:+: xs ++ [m] := by
  rw [← List.reverse_infix] at h ⊢
  simp only [List.reverse_append, List.reverse_cons, List.reverse_nil, List.nil_append,
    List.singleton_append, List.append_assoc] at h ⊢
  rcases infix_append_cases h with h | ⟨s, hs, hne, hw⟩
  · exact h
  · obtain ⟨u, us, rfl⟩ := List.exists_cons_of_ne_nil hne
    obtain rfl : m = u := (List.cons_prefix_cons.mp hw).1
    exact absurd (List.mem_reverse.mp (hs.subset List.mem_cons_self)) hm

/-- A window that starts with a word stands after blanks that are put in front. -/
theorem infix_tokenize_of_blank_append {b x : Text} (hb : ∀ c ∈ b, Text.isBlank c = true)
    {v : Token} {w : List Token} (hv : v.kind ≠ .space) (h : v :: w <:+: tokenize (b ++ x)) :
    v :: w <:+: tokenize x := by
  obtain ⟨gap, hgap, hjoined⟩ := exists_tokenize_blank_append hb x
  obtain ⟨gap', -, halone⟩ := @exists_tokenize_blank_append [] (by simp) x
  rw [hjoined] at h
  rw [← List.nil_append x, halone]
  refine List.IsInfix.trans ?_ (List.suffix_append _ _).isInfix
  rcases infix_append_cases h with h | ⟨s, hs, hne, hw⟩
  · exact h
  · obtain ⟨u, us, rfl⟩ := List.exists_cons_of_ne_nil hne
    obtain rfl : v = u := (List.cons_prefix_cons.mp hw).1
    exact absurd (hgap v (hs.subset List.mem_cons_self)).2 hv

/-- Between texts without closing brackets, of which the first ends with a brace and blanks, the
writes are those of the text. -/
theorem mem_hits_of_between {front b x back : Text} (hfront : ']' ∉ front)
    (hb : ∀ c ∈ b, Text.isBlank c = true) (hback : ']' ∉ back) {k : Text}
    (hk : k ∈ hits writeAt (tokenize (front ++ '\x7d' :: (b ++ (x ++ back))))) :
    k ∈ hits writeAt (tokenize x) := by
  have hbracket : ∀ y : Text, ']' ∉ y → mark ']' ∉ tokenize y := fun y hy hmem =>
    hy (mem_of_mem_tokenize hmem List.mem_cons_self)
  obtain ⟨w, hw, hwindow⟩ := (mem_hits_writeAt_iff proper_tokenize).mp hk
  have hbrace : mark '\x7d' ∉ word threadWord :: w := by
    rw [List.mem_cons, not_or]
    exact ⟨by decide, hw.mark_not_mem (by decide) (by decide)⟩
  obtain ⟨more, rfl⟩ := hw.exists_eq_append
  refine (mem_hits_writeAt_iff proper_tokenize).mpr ⟨_, hw, ?_⟩
  rw [tokenize_append_mark (by decide)] at hwindow
  have hinside : word threadWord :: (more ++ [mark ']']) <:+: tokenize (x ++ back) := by
    rcases infix_or_of_not_mem hbrace hwindow with hwindow | hwindow
    · exact absurd (hwindow.subset (by simp)) (hbracket front hfront)
    · exact infix_tokenize_of_blank_append hb (by decide) hwindow
  -- The window ends with the last bracket of the text at the latest.
  have hmem : ']' ∈ x := by
    have hall := mem_of_mem_tokenize (hinside.subset (by simp : mark ']' ∈ _)) List.mem_cons_self
    exact (List.mem_append.mp hall).resolve_right hback
  obtain ⟨y, z, hz, hsplit⟩ : ∃ y z, ']' ∉ z ∧ x = y ++ ']' :: z := by
    obtain ⟨z, y, hx, hz⟩ := List.eq_append_cons_of_mem (List.mem_reverse.mpr hmem)
    refine ⟨y.reverse, z.reverse, fun h => hz (List.mem_reverse.mp h), ?_⟩
    rw [← List.reverse_reverse x, hx]
    simp
  rw [hsplit, List.append_assoc, List.cons_append, tokenize_append_mark (by decide)] at hinside
  rw [hsplit, tokenize_append_mark (by decide)]
  have hlast := infix_concat_of_not_mem (w := word threadWord :: more) (hbracket (z ++ back)
    (by simp [hz, hback])) hinside
  refine hlast.trans (List.IsPrefix.isInfix ⟨tokenize z, by simp⟩)

/-! ## The text around the program -/

set_option maxRecDepth 20000 in
/-- The select functions end with a brace and a line break. -/
theorem suffix_selectFunctions : ['\x7d', '\n'] <:+ Shader.selectFunctions :=
  suffix_toList rfl (by decide)

set_option maxRecDepth 20000 in
theorem bracket_not_mem_selectFunctions : ']' ∉ Shader.selectFunctions :=
  not_mem_toList rfl (by decide)

theorem bracket_not_mem_fragmentInputs : ']' ∉ Shader.fragmentInputs :=
  not_mem_toList rfl (by decide)

set_option maxRecDepth 20000 in
theorem bracket_not_mem_integerMod : ']' ∉ Shader.integerMod :=
  not_mem_toList rfl (by decide)

set_option maxRecDepth 20000 in
theorem bracket_not_mem_codec (order : ByteOrder) : ']' ∉ Shader.codec order := by
  have hswap : ']' ∉ Shader.swapText order := by
    cases order <;> decide
  unfold Shader.codec
  simp only [List.mem_append, hswap, or_false, not_or]
  exact ⟨⟨not_mem_toList rfl (by decide), not_mem_toList rfl (by decide)⟩,
    not_mem_toList rfl (by decide)⟩

theorem bracket_not_mem_ofNat (n : Nat) : ']' ∉ Text.ofNat n := fun h =>
  absurd (isDigit_of_mem_ofNat h) (by decide)

theorem bracket_not_mem_outputRegister (index : Nat) : ']' ∉ outputRegister index := fun h =>
  absurd (List.all_eq_true.mp (all_of_isIdentifier (generated_outputRegister index).1) _ h)
    (by decide)

theorem bracket_not_mem_outputRegisters (thread : ThreadSignature) :
    ']' ∉ Shader.outputRegisters thread := by
  unfold Shader.outputRegisters
  rw [List.mem_flatMap]
  rintro ⟨index, -, h⟩
  have hregister : ']' ∉ threadOutputName (Text.ofNat index) := bracket_not_mem_outputRegister index
  simp only [List.mem_append, hregister, bracket_not_mem_ofNat, or_false] at h
  revert h
  decide

theorem bracket_not_mem_threadCall (rank : Rank) : ']' ∉ Shader.threadCall rank := by
  unfold Shader.threadCall
  cases rank with
  | one => exact not_mem_toList rfl (by decide)
  | two => exact not_mem_toList rfl (by decide)
  | three =>
    iterate 5 refine not_mem_toList_append ?_ (not_mem_toList rfl (by decide))
    exact not_mem_toList rfl (by decide)

theorem bracket_not_mem_threadMain (thread : ThreadSignature) :
    ']' ∉ Shader.threadMain thread := by
  have hopening : ']' ∉ ("void main() \x7b\n" ++
      "  int x = int(nc_thread_uv.x * float(nc_thread_viewport_width));\n" ++
      "  int y = int(nc_thread_uv.y * float(nc_thread_viewport_height));\n").toList := by
    iterate 2 refine not_mem_toList_append ?_ (not_mem_toList rfl (by decide))
    exact not_mem_toList rfl (by decide)
  have hline : ∀ index element, ']' ∉ Shader.encodeLine index element := by
    intro index element
    cases element with
    | color => exact List.not_mem_nil
    | float =>
      have hregister : ']' ∉ threadOutputName (Text.ofNat index) :=
        bracket_not_mem_outputRegister index
      simp only [Shader.encodeLine, List.mem_append, hregister, or_false, not_or]
      decide
  have hclosing : ']' ∉ "\x7d\n".toList := by decide
  unfold Shader.threadMain
  simp only [List.mem_append, List.mem_flatMap, hopening, bracket_not_mem_threadCall, hline,
    hclosing, and_false, exists_false, or_false, not_false_eq_true]

theorem bracket_not_mem_bufferMemberName {name member : Text} (hname : ']' ∉ name)
    (hmember : ']' ∉ member) : ']' ∉ bufferMemberName name member := by
  unfold bufferMemberName
  rw [List.mem_append, List.mem_append, List.mem_cons]
  rintro ((h | h) | h | h)
  · exact absurd h (by decide)
  · exact hname h
  · cases h
  · exact hmember h

/-- The declared names are the only names in the block that a program chooses. -/
theorem bracket_not_mem_uniformText {ds : List UniformDeclaration}
    (hnames : ∀ d ∈ ds, ']' ∉ d.name) :
    ']' ∉ (BindingTable.ofDeclarations ds).uniformText := by
  have htypes : ∀ entry ∈ BindingTable.memberTypes ds, ']' ∉ entry.1 := by
    intro entry hentry
    rcases List.mem_append.mp hentry with hentry | hentry
    · obtain ⟨n, hn, rfl⟩ := List.mem_map.mp hentry
      have hall : ∀ n ∈ builtinNames, ']' ∉ n := by decide
      exact hall n hn
    · obtain ⟨d, hd, hentry⟩ := List.mem_flatMap.mp hentry
      have hname := hnames d hd
      unfold UniformDeclaration.memberTypes at hentry
      split at hentry
      · rwa [List.mem_singleton.mp hentry]
      · rwa [List.mem_singleton.mp hentry]
      · rename_i kind _
        obtain ⟨f, hf, rfl⟩ := List.mem_map.mp hentry
        have hfields : ∀ kind ∈ BufferKind.all, ∀ f ∈ kind.companions, ']' ∉ f := by decide
        have hfield := hfields kind (BufferKind.mem_all kind) f hf
        exact bracket_not_mem_bufferMemberName hname hfield
  have hmembers : ∀ m ∈ (BindingTable.ofDeclarations ds).members, ']' ∉ m.name := by
    intro m hm
    rw [BindingTable.members_ofDeclarations] at hm
    have hentry := List.mem_map_of_mem (f := fun m => (m.name, m.type)) hm
    rw [BlockMember.map_place] at hentry
    exact htypes _ hentry
  have htext : ∀ m ∈ (BindingTable.ofDeclarations ds).members, ']' ∉ BindingTable.memberText m := by
    intro m hm
    have hword : ∀ type : ScalarType, ']' ∉ type.word := by
      rintro (_ | _) <;> decide
    simp only [BindingTable.memberText, List.mem_append, List.mem_cons, hword, hmembers m hm,
      or_false, not_or]
    decide
  have hopening : ']' ∉ blockOpening := by decide
  have hclosing : ']' ∉ blockClosing := by decide
  rw [BindingTable.uniformText_eq_append]
  simp only [List.mem_append, List.mem_flatMap, hopening, hclosing, or_false, false_or]
  rintro ⟨m, hm, h⟩
  exact htext m hm h

/-- The writes in the fragment shader stand in the program text. -/
theorem mem_hits_fragmentText {thread : ThreadSignature} {ds : List UniformDeclaration}
    (hnames : ∀ d ∈ ds, ']' ∉ d.name) {code k : Text}
    (hk : k ∈ hits writeAt (tokenize (fragmentText thread (.ofDeclarations ds) code))) :
    k ∈ hits writeAt (tokenize code) := by
  have hfront : ']' ∉ fragmentFront thread (.ofDeclarations ds) := by
    intro hmem
    rcases mem_intercalate hmem with hmem | ⟨part, hpart, hmem⟩
    · cases hmem
    · revert part
      simp only [List.forall_mem_cons, List.not_mem_nil, false_imp_iff, implies_true, and_true]
      exact ⟨by decide, bracket_not_mem_uniformText hnames, bracket_not_mem_fragmentInputs,
        bracket_not_mem_outputRegisters thread, bracket_not_mem_integerMod,
        bracket_not_mem_codec _, bracket_not_mem_selectFunctions⟩
  -- The front ends with a brace, so no token of it goes on into the program text.
  obtain ⟨front, hsplit⟩ : ∃ front,
      front ++ ['\x7d', '\n'] = fragmentFront thread (.ofDeclarations ds) := by
    refine suffix_selectFunctions.trans ?_
    have hlast : ∀ a b c d e f g : Text, g <:+ ['\n'].intercalate [a, b, c, d, e, f, g] := by
      intro a b c d e f g
      exact ⟨['\n'].intercalate [a, b, c, d, e, f, []], by simp [List.intercalate]⟩
    exact hlast _ _ _ _ _ _ _
  rw [← hsplit] at hfront
  have hback : ']' ∉ '\n' :: Shader.threadMain thread := by
    rw [List.mem_cons, not_or]
    exact ⟨by decide, bracket_not_mem_threadMain thread⟩
  rw [fragmentText_eq_append, ← hsplit, List.append_assoc] at hk
  refine mem_hits_of_between (b := ['\n', '\n'])
    (fun hmem => hfront (List.mem_append_left _ hmem)) (List.all_eq_true.mp (by decide)) hback hk

/-- A write between a mark and its closing bracket stands there in the fragment shader, too. -/
theorem writes_fragmentText {thread : ThreadSignature} {table : BindingTable} {x y z k : Text}
    {c : Char} (hc : isCut c = true) (h : Writes (y ++ [']']) k) :
    Writes (fragmentText thread table (x ++ c :: (y ++ ']' :: z))) k := by
  have htext : fragmentText thread table (x ++ c :: (y ++ ']' :: z)) =
      (fragmentFront thread table ++ '\n' :: x) ++ c :: (y ++ ']' ::
        (z ++ '\n' :: Shader.threadMain thread)) := by
    rw [fragmentText_eq_append]
    simp only [List.append_assoc, List.cons_append]
  obtain ⟨w, hw, hwindow⟩ := (mem_hits_writeAt_iff proper_tokenize).mp (writes_iff.mp h)
  rw [tokenize_append_mark (by decide), tokenize_nil] at hwindow
  refine writes_iff.mpr ((mem_hits_writeAt_iff proper_tokenize).mpr ⟨w, hw, hwindow.trans ?_⟩)
  rw [htext, tokenize_append_mark hc, tokenize_append_mark (c := ']') (by decide)]
  exact ⟨tokenize (fragmentFront thread table ++ '\n' :: x) ++ [mark c],
    tokenize (z ++ '\n' :: Shader.threadMain thread), by simp⟩

end Texelwise
