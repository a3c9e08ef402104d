import Texelwise.Proofs.Pattern.Ranges

/-!
# The tokens of a text after replacing

When occurrences are replaced and the text is split again, the tokens between the occurrences are
the old ones, as long as what is put in goes together with neither neighbour.

* `StartsName`, `Seamless`: texts that may stand for tokens.
* `Piece.splice`: the tokens of a piece; `Piece.tokenize_emit`: they are the tokens of the text.
* `Piece.growth_induction`: induction over pieces whose texts go together with names before them.
* `Pattern.captures_infix`: what a match captures are tokens that it takes.
* `Pattern.tokenize_emit_walk`: the tokens of the text after a pass; `mem_tokenize_replace` says
  where they come from.
-/

namespace Texelwise

open Token

/-! ## Texts for tokens -/

/-- The text starts with a letter or an underscore. -/
def StartsName (x : Text) : Prop := ∃ c more, x = c :: more ∧ (c.isAlpha || c = '_') = true

theorem startsName_of_isIdentifier {w : Text} (hw : isIdentifier w = true) (x : Text) :
    StartsName (w ++ x) := by
  cases w with
  | nil => cases hw
  | cons c more => exact ⟨c, more ++ x, rfl, (isIdentifier_cons.mp hw).1⟩

/-- The text may stand for the tokens: both start with a name, and the last token of the text ends
wherever the last one of the tokens does. -/
structure Seamless (taken : List Token) (w : Text) : Prop where
  startsName_taken : StartsName (textOf taken)
  startsName : StartsName w
  last : ∀ c, (∀ t ∈ taken.getLast?, t.EndsAt c) → ∀ u ∈ (tokenize w).getLast?, u.EndsAt c

/-- A text that ends with a mark goes together with nothing that follows. -/
theorem Seamless.of_mark {taken : List Token} (htaken : StartsName (textOf taken)) {x : Text}
    {c : Char} (hc : isCut c = true) (hx : StartsName (x ++ [c])) : Seamless taken (x ++ [c]) := by
  refine ⟨htaken, hx, fun d _ u hu => ?_⟩
  rw [tokenize_append_mark hc, tokenize_nil, List.getLast?_concat] at hu
  obtain rfl : mark c = u := by simpa using hu
  exact mark_endsAt (by rintro rfl; exact absurd hc (by decide)) d

/-- A name may stand for tokens that end with a name. -/
theorem Seamless.of_isIdentifier {taken : List Token} (htaken : StartsName (textOf taken))
    {more : List Token} {f w : Text} (hmore : taken = more ++ [word f]) (hf : isIdentifier f = true)
    (hw : isIdentifier w = true) : Seamless taken w := by
  refine ⟨htaken, by simpa using startsName_of_isIdentifier hw [], fun c hlast u hu => ?_⟩
  rw [tokenize_of_isIdentifier hw] at hu
  obtain rfl : word w = u := by simpa using hu
  rw [word_endsAt hw, ← word_endsAt hf]
  exact hlast (word f) (by rw [hmore, List.getLast?_concat]; rfl)

/-! ## Pieces -/

namespace Piece

/-- The tokens of a piece when an occurrence is replaced. -/
def splice (substitute : Occurrence → Text) : Piece → List Token
  | .kept t => [t]
  | .found o => tokenize (substitute o)

variable {substitute : Occurrence → Text} {pieces : List Piece}

theorem textOf_splice : textOf (pieces.flatMap (splice substitute)) =
    pieces.flatMap (emit substitute) := by
  induction pieces with
  | nil => rfl
  | cons piece pieces ih =>
    rw [List.flatMap_cons, textOf_append, ih, List.flatMap_cons]
    cases piece with
    | kept t => rw [splice, emit, textOf_cons, textOf_nil, List.append_nil]
    | found o => rw [splice, emit, textOf_tokenize]

/-- A token that ends before the pieces ends before them after replacing. -/
theorem endsAt_emit (h : ∀ o, .found o ∈ pieces → Seamless o.taken (substitute o))
    (hp : ∀ u ∈ tokensOf pieces, u.Proper) {t : Token}
    (ht : ∀ c ∈ (textOf (tokensOf pieces)).head?, t.EndsAt c) :
    ∀ c ∈ (pieces.flatMap (emit substitute)).head?, t.EndsAt c := by
  intro c hc
  cases pieces with
  | nil => cases hc
  | cons piece pieces =>
    cases piece with
    | kept u =>
      have hu : u.text ≠ [] := (hp u List.mem_cons_self).text_ne_nil
      have hold : (textOf (tokensOf (.kept u :: pieces))).head? = u.text.head? :=
        List.head?_append_of_ne_nil u.text hu
      rw [List.flatMap_cons, emit, List.head?_append_of_ne_nil _ hu] at hc
      exact ht c (hold ▸ hc)
    | found o =>
      obtain ⟨⟨a, old, hold, ha⟩, ⟨b, new, hnew, hb⟩, -⟩ := h o List.mem_cons_self
      have hends : t.EndsAt a := by
        refine ht a ?_
        have htext : textOf (tokensOf (.found o :: pieces)) =
            textOf o.taken ++ textOf (tokensOf pieces) := textOf_append o.taken _
        rw [htext, hold]
        rfl
      rw [List.flatMap_cons, emit, hnew] at hc
      obtain rfl : b = c := by simpa using hc
      exact hends.of_isAlpha ha hb

/-- Pieces of separated tokens are separated after replacing. -/
theorem separated_splice (h : ∀ o, .found o ∈ pieces → Seamless o.taken (substitute o))
    (hs : Separated (tokensOf pieces)) : Separated (pieces.flatMap (splice substitute)) := by
  induction pieces with
  | nil => trivial
  | cons piece pieces ih =>
    have hrest : ∀ o, .found o ∈ pieces → Seamless o.taken (substitute o) :=
      fun o ho => h o (List.mem_cons_of_mem piece ho)
    have hsplit : tokensOf (piece :: pieces) = piece.tokens ++ tokensOf pieces := rfl
    rw [hsplit] at hs
    obtain ⟨hfirst, htail, hlast⟩ := separatedBy_append.mp hs
    have hhead : ∀ t : Token, (∀ c ∈ (textOf (tokensOf pieces)).head?, t.EndsAt c) →
        ∀ c ∈ (textOf (pieces.flatMap (splice substitute))).head?, t.EndsAt c := by
      intro t ht
      rw [textOf_splice]
      exact endsAt_emit hrest (fun u hu => htail.proper hu) ht
    rw [List.flatMap_cons]
    cases piece with
    | kept t =>
      exact separatedBy_append.mpr
        ⟨hfirst, ih hrest htail, fun u hu => hhead u (hlast u hu)⟩
    | found o =>
      refine separatedBy_append.mpr ⟨separated_tokenize _, ih hrest htail, fun u hu c hc => ?_⟩
      have hends : ∀ t ∈ o.taken.getLast?, t.EndsAt c := fun t ht => hhead t (hlast t ht) c hc
      exact (h o List.mem_cons_self).last c hends u hu

/-- The text after replacing has the tokens of its pieces. -/
theorem tokenize_emit (h : ∀ o, .found o ∈ pieces → Seamless o.taken (substitute o))
    (hs : Separated (tokensOf pieces)) :
    tokenize (pieces.flatMap (emit substitute)) = pieces.flatMap (splice substitute) := by
  rw [← textOf_splice, tokenize_textOf (separated_splice h hs)]

end Piece

/-! ## Names that grow -/

/-- A token that does not end before a letter is an identifier or a number. -/
theorem Token.kind_of_not_endsAt {t : Token} {c : Char} (hc : (c.isAlpha || c = '_') = true)
    (h : ¬ t.EndsAt c) : t.kind = .ident ∨ t.kind = .number := by
  have hblank := isBlank_of_isWordChar (isWordChar_of_isAlpha hc)
  have hdigit := isDigit_of_isAlpha hc
  cases hkind : t.kind with
  | ident => exact .inl rfl
  | number => exact .inr rfl
  | space => exact absurd ⟨by rw [hkind]; exact hblank, fun _ => hdigit⟩ h
  | punct => exact absurd ⟨by rw [hkind]; rfl, fun _ => hdigit⟩ h

namespace Piece

variable {substitute : Occurrence → Text}

/-- A kept token that does not end before what follows it after replacing is an identifier or a
number right before an occurrence. -/
theorem exists_found_of_not_endsAt {t : Token} {pieces : List Piece}
    (hs : Separated (t :: tokensOf pieces))
    (hstarts : ∀ o, .found o ∈ pieces → StartsName (substitute o)) {c : Char}
    (hc : c ∈ (pieces.flatMap (emit substitute)).head?) (hnot : ¬ t.EndsAt c) :
    ∃ o rest, pieces = .found o :: rest ∧ (t.kind = .ident ∨ t.kind = .number) := by
  cases pieces with
  | nil => cases hc
  | cons piece pieces =>
    cases piece with
    | kept u =>
      have hu : u.text ≠ [] := hs.tail.1.text_ne_nil
      rw [List.flatMap_cons, emit, List.head?_append_of_ne_nil _ hu] at hc
      have hold : (textOf (tokensOf (.kept u :: pieces))).head? = u.text.head? :=
        List.head?_append_of_ne_nil _ hu
      exact absurd (hs.2.1 c (hold ▸ hc)) hnot
    | found o =>
      obtain ⟨d, more, htext, hletter⟩ := hstarts o List.mem_cons_self
      rw [List.flatMap_cons, emit, htext] at hc
      obtain rfl : d = c := Option.some.inj hc
      exact ⟨o, pieces, rfl, Token.kind_of_not_endsAt hletter hnot⟩

/-- Induction over pieces along the tokens of the text after replacing. A kept token ends before
what follows it, or it is an identifier or a number that grows into what is put in after it. -/
@[elab_as_elim]
theorem growth_induction {motive : List Piece → Prop} (nil : motive [])
    (kept : ∀ t pieces, Separated (t :: tokensOf pieces) →
      (∀ c ∈ (pieces.flatMap (emit substitute)).head?, t.EndsAt c) → motive pieces →
      motive (.kept t :: pieces))
    (found : ∀ (lead : Option Token) o pieces, (∀ t ∈ lead, t.kind = .ident ∨ t.kind = .number) →
      Separated (lead.toList ++ (o.taken ++ tokensOf pieces)) → motive pieces →
      motive (lead.toList.map .kept ++ .found o :: pieces)) :
    ∀ pieces, Separated (tokensOf pieces) →
      (∀ o, .found o ∈ pieces → StartsName (substitute o)) → motive pieces
  | [], _, _ => nil
  | .found o :: pieces, hs, hstarts =>
    found none o pieces (fun _ ht => nomatch ht) hs <|
      growth_induction nil kept found pieces (separatedBy_append.mp hs).2.1
        fun o' ho => hstarts o' (List.mem_cons_of_mem _ ho)
  | .kept t :: pieces, hs, hstarts => by
    have hrest := fun o ho => hstarts o (List.mem_cons_of_mem _ ho)
    -- Only into a word that is put in can a kept token go on.
    by_cases hends : ∀ c ∈ (pieces.flatMap (emit substitute)).head?, t.EndsAt c
    · exact kept t pieces hs hends (growth_induction nil kept found pieces hs.tail hrest)
    · push Not at hends
      obtain ⟨c, hc, hnot⟩ := hends
      obtain ⟨o, pieces, rfl, hkind⟩ := exists_found_of_not_endsAt hs hrest hc hnot
      have htail : Separated (o.taken ++ tokensOf pieces) := hs.tail
      refine found (some t) o pieces (fun u hu => ?_) hs ?_
      · obtain rfl : t = u := Option.some.inj hu
        exact hkind
      · exact growth_induction nil kept found pieces (separatedBy_append.mp htail).2.1
          fun o' ho => hrest o' (List.mem_cons_of_mem _ ho)
termination_by pieces => pieces.length

end Piece

/-! ## Passes -/

namespace Pattern

/-- What a match captures is the text of some of the tokens that it takes. -/
theorem captures_infix {p : Pattern} {ts : List Token} {m : Match} (h : p.match? ts = some m) :
    ∀ c ∈ m.captures, ∃ us, us <:+: m.taken ∧ c = textOf us := by
  induction p generalizing ts m with
  | nil =>
    cases h
    exact fun c hc => absurd hc List.not_mem_nil
  | atom a p ih =>
    obtain ⟨run, left, n, ha, hn, rfl⟩ := exists_of_match?_atom h
    intro c hc
    obtain ⟨us, hus, htext⟩ := ih hn c hc
    exact ⟨us, hus.trans (List.suffix_append run n.taken).isInfix, htext⟩
  | capture inner p ihi ihp =>
    obtain ⟨i, n, hi, hn, rfl⟩ := exists_of_match?_capture h
    intro c hc
    rcases List.mem_cons.mp hc with rfl | hc
    · exact ⟨i.taken, (List.prefix_append i.taken n.taken).isInfix, rfl⟩
    · rcases List.mem_append.mp hc with hc | hc
      · obtain ⟨us, hus, htext⟩ := ihi hi c hc
        exact ⟨us, hus.trans (List.prefix_append i.taken n.taken).isInfix, htext⟩
      · obtain ⟨us, hus, htext⟩ := ihp hn c hc
        exact ⟨us, hus.trans (List.suffix_append i.taken n.taken).isInfix, htext⟩

/-- After a pass the text has the tokens of its pieces. -/
theorem tokenize_emit_walk {p : Pattern} (hp : p.Consumes = true)
    {substitute : Occurrence → Text} {x : Text}
    (hseamless : ∀ us m, us <:+ tokenize x → p.match? us = some m →
      Seamless m.taken (substitute ⟨m.taken, m.captures⟩)) :
    tokenize ((p.walk (tokenize x)).flatMap (Piece.emit substitute)) =
      (p.walk (tokenize x)).flatMap (Piece.splice substitute) := by
  have hall : ∀ o, .found o ∈ p.walk (tokenize x) → Seamless o.taken (substitute o) := by
    intro o ho
    obtain ⟨us, m, hus, hm, rfl⟩ := match?_of_mem_walk ho
    exact hseamless us m hus hm
  exact Piece.tokenize_emit hall ((tokensOf_walk hp _).symm ▸ separated_tokenize x)

/-- After a pass a token is one of the text before, or it is in the text for an occurrence. -/
theorem mem_tokenize_replace {p : Pattern} (hp : p.Consumes = true) {substitute : Occurrence → Text}
    {x : Text} (hseamless : ∀ us m, us <:+ tokenize x → p.match? us = some m →
      Seamless m.taken (substitute ⟨m.taken, m.captures⟩)) {u : Token}
    (hu : u ∈ tokenize ((Sweep.replace p substitute).of x)) :
    u ∈ tokenize x ∨ ∃ us m, us <:+ tokenize x ∧ p.match? us = some m ∧
      u ∈ tokenize (substitute ⟨m.taken, m.captures⟩) := by
  have hof : (Sweep.replace p substitute).of x =
      (p.walk (tokenize x)).flatMap (Piece.emit substitute) := by
    rw [Sweep.emit_eq_piece p]
    rfl
  rw [hof, tokenize_emit_walk hp hseamless] at hu
  obtain ⟨piece, hpiece, hu⟩ := List.mem_flatMap.mp hu
  cases piece with
  | kept t =>
    obtain rfl := List.mem_singleton.mp hu
    refine .inl ?_
    rw [← tokensOf_walk hp (tokenize x)]
    exact List.mem_flatMap.mpr ⟨_, hpiece, List.mem_cons_self⟩
  | found o =>
    obtain ⟨us, m, hus, hm, rfl⟩ := match?_of_mem_walk hpiece
    exact .inr ⟨us, m, hus, hm, hu⟩

end Pattern

end Texelwise
