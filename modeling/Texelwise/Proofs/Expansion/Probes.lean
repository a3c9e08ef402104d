import Texelwise.Proofs.Expansion.Spacing

/-!
# What is found in images

A pass that looks for something finds the same in an image as in the tokens, as long as it looks
for what no replacement has.

* `hits`: what a probe finds, token by token.
* `Probe`: a probe that looks at words of the language and opening brackets only, and that reads
  as far as the readers of sites do.
* `Probe.hits_image`: an image has the hits of the tokens.
* `probe_textAt`, `probe_writeAt`, `probe_headerAt`: single texts, writes and headers.
-/

namespace Texelwise

open Token

/-- The word `uniform`. -/
def uniformWord : Text := "uniform".toList

/-- The texts at which something other than a site may start. -/
def askedWords : List Text := [threadWord, uniformWord, ['[']]

theorem not_mem_askedWords_of_generated {w : Text} (h : "nc_".toList <+: w) : w ∉ askedWords := by
  obtain ⟨more, rfl⟩ := h
  have hall : ∀ w ∈ askedWords, w.head? ≠ some 'n' := by decide
  exact fun hmem => hall _ hmem rfl

theorem generated_bufferMemberName (name member : Text) :
    "nc_".toList <+: bufferMemberName name member := by
  have hprefix : "nc_".toList <+: "nc_uniform_".toList := ⟨"uniform_".toList, rfl⟩
  unfold bufferMemberName
  exact hprefix.trans ((List.prefix_append _ name).trans (List.prefix_append _ _))

theorem not_mem_askedWords_of_isSpace {u : Token} (hu : u.Proper) (hspace : u.kind = .space) :
    u.text ∉ askedWords := by
  intro hmem
  have hall : ∀ w ∈ askedWords, w.head?.any (!Text.isBlank ·) = true := by decide
  have hhead := hall u.text hmem
  cases htext : u.text with
  | nil => exact hu.text_ne_nil htext
  | cons c more =>
    have hc : Text.isBlank c = true := by
      rw [hu.isBlank_eq (by rw [htext]; exact List.mem_cons_self)]
      exact decide_eq_true hspace
    rw [htext] at hhead
    simp [hc] at hhead

/-- A number is no word of the language and no bracket. -/
theorem not_mem_askedWords_of_number {n : Token} (hn : n.Proper) (hkind : n.kind = .number) :
    n.text ∉ askedWords := by
  intro hmem
  have hkinds : ∀ w ∈ askedWords, ∃ c more, w = c :: more ∧ TokenKind.ofStart c more ≠ .number := by
    simp only [askedWords, List.mem_cons, List.not_mem_nil, or_false]
    rintro w (rfl | rfl | rfl)
    · exact ⟨'t', "hread".toList, rfl, by decide⟩
    · exact ⟨'u', "niform".toList, rfl, by decide⟩
    · exact ⟨'[', [], rfl, by decide⟩
  obtain ⟨c, more, htext, hne⟩ := hkinds n.text hmem
  obtain ⟨c', more', htext', hstart, -⟩ := hn
  rw [htext] at htext'
  cases htext'
  rw [hkind] at hstart
  exact hne hstart

section Probes

variable {α : Type} {q : Token → List Token → Option α}

/-- What is found at the tokens, one after another. -/
def hits (q : Token → List Token → Option α) : List Token → List α
  | [] => []
  | t :: ts => (q t ts).toList ++ hits q ts

@[simp] theorem hits_nil : hits q [] = [] := rfl

theorem hits_cons_of_none {t : Token} {ts : List Token} (h : q t ts = none) :
    hits q (t :: ts) = hits q ts := by
  rw [hits, h]
  rfl

/-- Nothing is found at an opening bracket. -/
def Unasked (q : Token → List Token → Option α) (ts : List Token) : Prop :=
  ∀ pre us, ts = pre ++ mark '[' :: us → q (mark '[') us = none

theorem Unasked.of_append {xs ys : List Token} (h : Unasked q (xs ++ ys)) : Unasked q ys := by
  rintro pre us rfl
  exact h (xs ++ pre) us (by simp)

theorem Unasked.tail {t : Token} {ts : List Token} (h : Unasked q (t :: ts)) : Unasked q ts := by
  rintro pre us rfl
  exact h (t :: pre) us rfl

variable (q)

/-- A probe asks at words of the language and opening brackets, finds the same before an image as
before the tokens, and inside a closed part finds the same whatever follows. -/
structure Probe : Prop where
  asked : ∀ t ts, t.text ∉ askedWords → q t ts = none
  image : ∀ (r : Rules) (g : List Token → List Token), r.Sane → Rules.KeepsAll g →
    ∀ t ts, (∀ u ∈ ts, u.Proper) → q t (r.imageWith g ts) = q t ts
  closed : ∀ d t ts zs, Closes d (t :: ts) → (∀ u ∈ t :: ts, u.Proper) → Halts zs →
    q t (ts ++ zs) = q t ts

variable {q} (hq : Probe q)

include hq

namespace Probe

theorem hits_append_of_not_mem {us : List Token} (h : ∀ u ∈ us, u.text ∉ askedWords)
    (zs : List Token) : hits q (us ++ zs) = hits q zs := by
  induction us with
  | nil => rfl
  | cons u us ih =>
    rw [List.cons_append, hits_cons_of_none (hq.asked u _ (h u List.mem_cons_self)),
      ih fun v hv => h v (List.mem_cons_of_mem u hv)]

theorem hits_of_not_mem {us : List Token} (h : ∀ u ∈ us, u.text ∉ askedWords) :
    hits q us = [] := by
  have := hq.hits_append_of_not_mem h []
  simpa using this

/-- What is found in a closed part and after it is found apart. -/
theorem hits_append {d : Nat} {xs zs : List Token} (h : Closes d xs) (hp : ∀ u ∈ xs, u.Proper)
    (hz : Halts zs) : hits q (xs ++ zs) = hits q xs ++ hits q zs := by
  induction xs generalizing d with
  | nil => rfl
  | cons t ts ih =>
    obtain ⟨n, -, hts⟩ := closes_cons.mp h
    rw [List.cons_append, hits, hits, hq.closed d t ts zs h hp hz,
      ih hts fun u hu => hp u (List.mem_cons_of_mem t hu), List.append_assoc]

theorem hits_trimBlanks {ts : List Token} (h : Clean ts) : hits q (trimBlanks ts) = hits q ts := by
  obtain ⟨pre, post, heq, hpre, hpost, hclean⟩ := h.exists_trimBlanks
  have hp : ∀ u ∈ pre ++ (trimBlanks ts ++ post), u.Proper := by
    have := h.proper
    rwa [heq] at this
  have hblank : ∀ u : Token, u.Proper → u.isSpace = true → u.text ∉ askedWords :=
    fun u hu hspace => not_mem_askedWords_of_isSpace hu (of_decide_eq_true hspace)
  conv => rhs; rw [heq]
  rw [hq.hits_append_of_not_mem fun u hu => hblank u (hp u (by simp [hu])) (hpre u hu),
    hq.hits_append hclean.balanced hclean.proper (halts_of_isSpace hpost),
    hq.hits_of_not_mem fun u hu => hblank u (hp u (by simp [hu])) (hpost u hu), List.append_nil]

/-! ## Calls and samples -/

theorem hits_argumentTail {rest : List (List Token)} (h : ∀ a ∈ rest, Clean a)
    (zs : List Token) :
    hits q (argumentTail rest ++ mark ')' :: zs) = rest.flatMap (hits q) ++ hits q zs := by
  induction rest with
  | nil => exact hits_cons_of_none (hq.asked _ _ (by decide))
  | cons a rest ih =>
    have ha := h a List.mem_cons_self
    rw [argumentTail_cons, List.cons_append, List.cons_append, List.append_assoc,
      hits_cons_of_none (hq.asked _ _ (by decide)), hits_cons_of_none (hq.asked _ _ (by decide)),
      hq.hits_append ha.balanced ha.proper (Rules.halts_argumentTail rest zs),
      ih fun b hb => h b (List.mem_cons_of_mem a hb), List.flatMap_cons, List.append_assoc]

theorem hits_call {f : Text} (hf : f ∉ askedWords) {first : List Token}
    {rest : List (List Token)} (hfirst : Clean first) (hrest : ∀ a ∈ rest, Clean a)
    (zs : List Token) :
    hits q (call f first rest ++ zs) =
      hits q first ++ (rest.flatMap (hits q) ++ hits q zs) := by
  have heq : call f first rest ++ zs =
      word f :: mark '(' :: (first ++ (argumentTail rest ++ mark ')' :: zs)) := by
    simp [call]
  rw [heq, hits_cons_of_none (hq.asked _ _ hf), hits_cons_of_none (hq.asked _ _ (by decide)),
    hq.hits_append hfirst.balanced hfirst.proper (Rules.halts_argumentTail rest zs),
    hq.hits_argumentTail hrest]

theorem hits_generated {w : Text} (h : "nc_".toList <+: w) : hits q [word w] = [] := by
  refine hq.hits_of_not_mem fun u hu => ?_
  rw [List.mem_singleton.mp hu]
  exact not_mem_askedWords_of_generated h

theorem hits_selectTokens {name : Text} (hname : isIdentifier name = true) (kind : BufferKind)
    {indices : List (List Token)} (h : ∀ i ∈ indices, Clean i) :
    hits q (selectTokens name kind indices) = indices.flatMap (hits q) := by
  have hf : "nc_select_".toList ++ kind.rank.label ∉ askedWords :=
    not_mem_askedWords_of_generated ⟨"select_".toList ++ kind.rank.label, by simp⟩
  have hmembers : ((companionTail kind).map fun m => [word (bufferMemberName name m)]).flatMap
      (hits q) = [] := by
    refine List.flatMap_eq_nil_iff.mpr fun a ha => ?_
    obtain ⟨m, -, rfl⟩ := List.mem_map.mp ha
    exact hq.hits_generated (generated_bufferMemberName name m)
  have hcall : hits q (selectTokens name kind indices ++ []) = _ :=
    hq.hits_call hf (clean_word (isIdentifier_bufferMemberName hname (by decide)))
      (fun _ => clean_of_mem_selectArguments hname kind h) []
  rw [List.append_nil, hits_nil, List.append_nil, List.flatMap_append, hmembers,
    hq.hits_generated (generated_bufferMemberName name _)] at hcall
  exact hcall

theorem hits_samplerTokens {name : Text} (hname : isIdentifier name = true) :
    hits q (samplerTokens name) = [] := by
  have hcall : hits q (samplerTokens name ++ []) = _ :=
    hq.hits_call (by decide) (clean_word (isIdentifier_textureName hname))
      (fun _ => clean_of_mem_samplerArguments) []
  have htextureName : hits q [word (textureName name)] = [] :=
    hq.hits_generated (generated_bufferMemberName name _)
  have hsamplerName : hits q [word samplerName] = [] :=
    hq.hits_generated ⟨"sampler".toList, rfl⟩
  rw [List.append_nil, hits_nil, List.append_nil, List.flatMap_singleton, htextureName,
    hsamplerName] at hcall
  exact hcall

theorem hits_textureTokens {name : Text} (hname : isIdentifier name = true) (kind : BufferKind)
    {indices : List (List Token)} (h : ∀ i ∈ indices, Clean i) (zs : List Token) :
    hits q (textureTokens name kind indices ++ zs) =
      indices.flatMap (hits q) ++ hits q zs := by
  have hzero : hits q [zeroLiteral] = [] := hq.hits_of_not_mem (by decide)
  have hcall : hits q (textureTokens name kind indices ++ zs) = _ :=
    hq.hits_call (by decide) (clean_samplerTokens hname)
      (fun _ => clean_of_mem_textureArguments hname kind h) zs
  rw [hq.hits_samplerTokens hname, List.flatMap_cons, hq.hits_selectTokens hname kind h,
    List.flatMap_singleton, hzero, List.append_nil, List.nil_append] at hcall
  exact hcall

/-- In a sample what is found is what is found in its indices. -/
theorem hits_sampleTokens {name : Text} (hname : isIdentifier name = true) (kind : BufferKind)
    {indices : List (List Token)} (h : ∀ i ∈ indices, Clean i) (zs : List Token) :
    hits q (sampleTokens name kind indices ++ zs) =
      indices.flatMap (hits q) ++ hits q zs := by
  unfold sampleTokens
  cases kind.element with
  | float =>
    have hinside := hq.hits_textureTokens hname kind h []
    rw [List.append_nil, hits_nil, List.append_nil] at hinside
    show hits q (call "nc_decode".toList (textureTokens name kind indices) [] ++ zs) = _
    rw [hq.hits_call (by decide) (clean_textureTokens hname kind h)
      (fun a ha => absurd ha List.not_mem_nil), hinside]
    rfl
  | color => exact hq.hits_textureTokens hname kind h zs

/-! ## Images -/

theorem hits_gap_append {gap : List Token} (hgap : Gap gap) (hp : ∀ u ∈ gap, u.Proper)
    (zs : List Token) : hits q (gap ++ zs) = hits q zs := by
  refine hq.hits_append_of_not_mem (fun u hu => ?_) zs
  rcases hgap.eq_nil_or with rfl | ⟨b, rfl, hb⟩
  · cases hu
  · obtain rfl := List.mem_singleton.mp hu
    exact not_mem_askedWords_of_isSpace (hp u hu) hb

/-- In subscripts what is found is what is found in the indices. -/
theorem hits_subscripts {blocks : List (List Token)} {tail : List Token}
    (h : Subscripts blocks tail) {zs : List Token} (hp : ∀ u ∈ tail, u.Proper)
    (hasked : Unasked q (tail ++ zs)) :
    hits q (tail ++ zs) = blocks.flatMap (hits q) ++ hits q zs := by
  induction h with
  | nil => rfl
  | @cons gap block tail blocks hgap hblock _ _ ih =>
    have hassoc : gap ++ mark '[' :: (block ++ mark ']' :: tail) ++ zs =
        gap ++ mark '[' :: (block ++ mark ']' :: (tail ++ zs)) := by simp
    have htail : Unasked q (tail ++ zs) := by
      rw [hassoc] at hasked
      have hpre : gap ++ mark '[' :: (block ++ mark ']' :: (tail ++ zs)) =
          (gap ++ mark '[' :: block ++ [mark ']']) ++ (tail ++ zs) := by simp
      rw [hpre] at hasked
      exact hasked.of_append
    have hopen : q (mark '[') (block ++ mark ']' :: (tail ++ zs)) = none :=
      hasked gap _ hassoc
    rw [hassoc, hq.hits_gap_append hgap fun u hu => hp u (by simp [hu]), hits_cons_of_none hopen,
      hq.hits_append hblock (fun u hu => hp u (by simp [hu])) (halts_mark (by decide) _),
      hits_cons_of_none (hq.asked _ _ (by decide)), ih (fun u hu => hp u (by simp [hu])) htail,
      List.flatMap_cons, List.append_assoc]

/-- At the opening brackets of an index nothing is found if nothing is found around it. -/
theorem unasked_of_closes {d : Nat} {pre b post : List Token} (hb : Closes d b)
    (hp : ∀ u ∈ b, u.Proper) (hpost : Halts post) (h : Unasked q (pre ++ (b ++ post))) :
    Unasked q b := by
  rintro pre' us rfl
  obtain ⟨n, hclose⟩ : ∃ n, Closes n (mark '[' :: us) := by
    clear h
    induction pre' generalizing d with
    | nil => exact ⟨d, hb⟩
    | cons t pre' ih =>
      obtain ⟨m, -, hm⟩ := closes_cons.mp hb
      exact ih hm fun u hu => hp u (List.mem_cons_of_mem t hu)
  rw [← hq.closed n _ us post hclose (fun u hu => hp u (List.mem_append_right _ hu)) hpost]
  exact h (pre ++ pre') _ (by simp)

theorem hits_replacement {w : Text} (hw : Replacement w) (zs : List Token) :
    hits q (tokenize w ++ zs) = hits q zs := by
  obtain ⟨name, ⟨-, hnc⟩, htok | htok⟩ := hw.tokenize_eq
  · rw [htok]
    refine hq.hits_append_of_not_mem (fun u hu => ?_) zs
    rw [List.mem_singleton.mp hu]
    exact not_mem_askedWords_of_generated hnc
  · rw [htok]
    refine hq.hits_append_of_not_mem (fun u hu => ?_) zs
    rcases List.mem_cons.mp hu with rfl | hu
    · exact not_mem_askedWords_of_generated hnc
    · have hrest : ∀ v ∈ [mark '.', word ['r']], v.text ∉ askedWords := by decide
      exact hrest u hu

/-- Behind the first word of a field nothing is found in it. -/
theorem hits_fieldTail {gap gap' : List Token} {f : Token} (hgap : Gap gap) (hgap' : Gap gap')
    (hf : f.text ∈ extentFields) {rest : List Token}
    (hp : ∀ u ∈ gap ++ mark '.' :: (gap' ++ [f]), u.Proper) :
    hits q (gap ++ mark '.' :: (gap' ++ [f]) ++ rest) = hits q rest := by
  have hextents : ∀ f ∈ extentFields, f ∉ askedWords := by decide
  have hassoc : gap ++ mark '.' :: (gap' ++ [f]) ++ rest =
      gap ++ mark '.' :: (gap' ++ f :: rest) := by simp
  rw [hassoc, hq.hits_gap_append hgap fun u hu => hp u (by simp [hu]),
    hits_cons_of_none (hq.asked _ _ (by decide)),
    hq.hits_gap_append hgap' fun u hu => hp u (by simp [hu]),
    hits_cons_of_none (hq.asked _ _ (hextents _ hf))]

/-- Behind the first word of a write nothing is found in it, if nothing is at its bracket. -/
theorem hits_outputTail {gap gap' gap'' : List Token} {n : Token} (hgap : Gap gap)
    (hgap' : Gap gap') (hgap'' : Gap gap'') (hn : n.kind = .number) {rest : List Token}
    (hp : ∀ u ∈ gap ++ mark '[' :: (gap' ++ n :: (gap'' ++ [mark ']'])), u.Proper)
    (hasked : Unasked q (gap ++ mark '[' :: (gap' ++ n :: (gap'' ++ [mark ']'])) ++ rest)) :
    hits q (gap ++ mark '[' :: (gap' ++ n :: (gap'' ++ [mark ']'])) ++ rest) = hits q rest := by
  have hassoc : gap ++ mark '[' :: (gap' ++ n :: (gap'' ++ [mark ']'])) ++ rest =
      gap ++ mark '[' :: (gap' ++ n :: (gap'' ++ mark ']' :: rest)) := by simp
  have hopen : q (mark '[') (gap' ++ n :: (gap'' ++ mark ']' :: rest)) = none :=
    hasked gap _ hassoc
  have hnumber : n.text ∉ askedWords := not_mem_askedWords_of_number (hp n (by simp)) hn
  rw [hassoc, hq.hits_gap_append hgap fun u hu => hp u (by simp [hu]), hits_cons_of_none hopen,
    hq.hits_gap_append hgap' fun u hu => hp u (by simp [hu]),
    hits_cons_of_none (hq.asked _ _ hnumber),
    hq.hits_gap_append hgap'' fun u hu => hp u (by simp [hu]),
    hits_cons_of_none (hq.asked _ _ (by decide))]

/-- Nothing is asked at the brackets inside an index, if nothing is in the subscripts. -/
theorem unasked_of_mem_subscripts {blocks : List (List Token)} {tail rest : List Token}
    (h : Subscripts blocks tail) (hasked : Unasked q (tail ++ rest)) {b : List Token}
    (hb : b ∈ blocks) (hclean : Clean b) : Unasked q b := by
  obtain ⟨pre, post, heq⟩ := h.exists_of_mem hb
  have hall : Unasked q (pre ++ (b ++ mark ']' :: (post ++ rest))) := by
    rw [heq] at hasked
    simpa using hasked
  exact hq.unasked_of_closes hclean.balanced hclean.proper
    (halts_mark (.inr (.inr rfl)) (post ++ rest)) hall

/-- An image has the hits of the tokens, if a probe finds nothing at a site or at the opening
brackets of one. -/
theorem hits_image {r : Rules} (hr : r.Sane)
    (hhead : ∀ t s tail rest, t.kind = .ident → r.Stands t s tail → q t (tail ++ rest) = none)
    {ts : List Token} (hp : ∀ u ∈ ts, u.Proper) (hasked : Unasked q ts) :
    hits q (r.image ts) = hits q ts := by
  induction ts using r.induction with
  | nil => simp
  | keep t ts hnone ih =>
    have hpts : ∀ u ∈ ts, u.Proper := fun u hu => hp u (List.mem_cons_of_mem t hu)
    have himage : q t (r.image ts) = q t ts := by
      rw [Rules.image_eq]
      exact hq.image r r.image hr (fun b hb => Rules.clean_image hr hb) t ts hpts
    rw [Rules.image_keep hnone, hits, hits, himage,
      ih ts (Nat.le_refl _) hpts (hasked.tail)]
  | site t s tail rest hkind hs ih =>
    have hprest : ∀ u ∈ rest, u.Proper := fun u hu => hp u (by simp [hu])
    have hptail : ∀ u ∈ tail, u.Proper := fun u hu => hp u (by simp [hu])
    have htail : Unasked q (tail ++ rest) := hasked.tail
    have hrest := ih rest (by simp) hprest htail.of_append
    rw [Rules.image_site (Rules.site?_append hkind hs rest),
      hits_cons_of_none (hhead t s tail rest hkind hs)]
    cases hs with
    | field hgap hgap' _ hf hw =>
      rw [Rules.emit, hq.hits_replacement (hr.fields _ (mem_of_lookup hw)).2.replacement, hrest,
        hq.hits_fieldTail hgap hgap' hf hptail]
    | output _ hgap hgap' hgap'' hn hw =>
      rw [Rules.emit, hq.hits_replacement (hr.outputs _ _ hw), hrest,
        hq.hits_outputTail hgap hgap' hgap'' hn hptail htail]
    | @read kind blocks _ ht hread hlen hsubs =>
      have hstands : r.Stands t (.read kind blocks) tail := .read ht hread hlen hsubs
      have hclean : ∀ b ∈ blocks, Clean b := fun b hb => hstands.clean hptail hb
      have himage : ∀ b ∈ blocks, Clean (r.image b) :=
        fun b hb => Rules.clean_image hr (hclean b hb)
      have hindices : ∀ i ∈ blocks.map fun b => trimBlanks (r.image b), Clean i := by
        intro i hi
        obtain ⟨b, hb, rfl⟩ := List.mem_map.mp hi
        exact (himage b hb).trimBlanks
      rw [Rules.emit, hq.hits_sampleTokens (hr.reads _ (mem_of_lookup hread)).1 kind hindices,
        hrest, hq.hits_subscripts hsubs hptail htail, List.flatMap_map]
      -- What is left is index by index, where the tokens are fewer.
      congr 1
      refine List.flatMap_congr fun b hb => ?_
      rw [hq.hits_trimBlanks (himage b hb)]
      refine ih b ?_ (hclean b hb).proper
        (hq.unasked_of_mem_subscripts hsubs htail hb (hclean b hb))
      have := hsubs.length_lt hb
      rw [List.length_append]
      omega

end Probe

end Probes

/-! ## The three probes -/

/-- The number of a write that starts at the token. -/
def writeAt (t : Token) (ts : List Token) : Option Text :=
  if t.text = threadWord then (number? ts).map Prod.fst else none

/-- Whether the token has this text. -/
def textAt (w : Text) (t : Token) (_ : List Token) : Option Unit :=
  if t.text = w then some () else none

/-- Whether a thread header starts at the token. -/
def headerAt (t : Token) (ts : List Token) : Option Unit :=
  if t = mark '[' then
    (enclosed? '[' ']' (t :: ts)).bind fun (_, left) =>
      (next? (· = word threadWord) (skipBlank left)).bind fun (_, left) =>
        (enclosed? '(' ')' left).map fun _ => ()
  else none

theorem probe_textAt {w : Text} (hw : w ∈ askedWords) : Probe (textAt w) := by
  refine ⟨fun t ts ht => ?_, fun _ _ _ _ _ _ _ => rfl, fun _ _ _ _ _ _ _ => rfl⟩
  have hne : t.text ≠ w := by
    rintro rfl
    exact ht hw
  rw [textAt, if_neg hne]

theorem probe_writeAt : Probe writeAt := by
  refine ⟨fun t ts ht => ?_, fun r g hr hg t ts hp => ?_, fun d t ts zs h hp hz => ?_⟩
  · have hne : t.text ≠ threadWord := by
      intro h
      rw [h] at ht
      exact ht (by decide)
    rw [writeAt, if_neg hne]
  · unfold writeAt
    rw [Rules.number?_imageWith hr hg hp, Option.map_map]
    rfl
  · obtain ⟨n, -, hts⟩ := closes_cons.mp h
    unfold writeAt
    rw [hts.number?_append (fun u hu => hp u (List.mem_cons_of_mem t hu)) hz, Option.map_map]
    rfl

theorem role_closeParen : (mark ')').role = .closer := by decide

/-- The word `thread` with parentheses after it is found in front of an image where it stands in
front of the tokens. -/
theorem threadCall_imageWith {r : Rules} {g : List Token → List Token} (hr : r.Sane)
    (hg : Rules.KeepsAll g) {ts : List Token} (hp : ∀ u ∈ ts, u.Proper) :
    ((next? (· = word threadWord) (r.imageWith g ts)).bind fun (_, left) =>
        (enclosed? '(' ')' left).map fun _ => ()) =
      (next? (· = word threadWord) ts).bind fun (_, left) =>
        (enclosed? '(' ')' left).map fun _ => () := by
  cases ts with
  | nil => rw [Rules.imageWith_nil]
  | cons t ts =>
    have hpts : ∀ u ∈ ts, u.Proper := fun u hu => hp u (List.mem_cons_of_mem t hu)
    rcases Rules.imageWith_cons_cases hr hg hp with h | ⟨-, -, hsite, u, us, h, -, hu⟩
    · rw [h]
      simp only [next?]
      split
      · simp only [Option.bind_some, Rules.enclosed?_imageWith hr hg hpts, Option.map_map,
          Function.comp_def]
      · rfl
    · -- a site starts at the token, so no parenthesis is next
      have hthread : u ≠ word threadWord := by
        rintro rfl
        exact hu List.mem_cons_self
      have hparen : enclosed? '(' ')' ts = none := by
        cases hin : afterMark? '(' ts with
        | none => rw [enclosed?, hin, Option.bind_none]
        | some left =>
          exact absurd (Rules.site?_eq_none_of_afterMark? (by decide) hin t) hsite
      rw [h]
      simp only [next?, hthread, decide_false, Bool.false_eq_true, if_false, Option.bind_none]
      split
      · rw [Option.bind_some, hparen]
        rfl
      · rfl

/-- The word `thread` with parentheses after it is found in a closed part whatever follows. -/
theorem threadCall_append {d : Nat} {ts zs : List Token} (h : Closes d ts)
    (hp : ∀ u ∈ ts, u.Proper) (hz : Halts zs) :
    ((next? (· = word threadWord) (skipBlank (ts ++ zs))).bind fun (_, left) =>
        (enclosed? '(' ')' left).map fun _ => ()) =
      (next? (· = word threadWord) (skipBlank ts)).bind fun (_, left) =>
        (enclosed? '(' ')' left).map fun _ => () := by
  have htest : Passes fun t => t = word threadWord := by
    refine ⟨fun t ht => decide_eq_false ?_, by decide, by decide, by decide⟩
    rintro rfl
    cases ht
  rw [next?_skipBlank_append htest ts hz]
  cases hn : next? (· = word threadWord) (skipBlank ts) with
  | none => rfl
  | some p =>
    obtain ⟨u, after⟩ := p
    obtain ⟨hu, gap, hgap, rfl⟩ := (next?_skipBlank_eq_some_iff htest.1).mp hn
    obtain rfl := of_decide_eq_true hu
    have hword : Balanced [word threadWord] := balanced_of_other (by decide)
    have hfront := (hgap.balanced fun v hv => hp v (by simp [hv])).append hword
    have hafter : Closes d after := by
      refine Closes.of_append hfront ?_
      rw [Nat.zero_add]
      simpa using h
    simp only [Option.map_some, Option.bind_some, Prod.map_apply, id_eq,
      hafter.enclosed?_append (o := '(') (c := ')') (by decide)
        (fun v hv => hp v (by simp [hv])) hz, Option.map_map, Function.comp_def]

theorem probe_headerAt : Probe headerAt := by
  refine ⟨fun t ts ht => ?_, fun r g hr hg t ts hp => ?_, fun d t ts zs h hp hz => ?_⟩
  · have hne : t ≠ mark '[' := by
      rintro rfl
      exact ht (by decide)
    rw [headerAt, if_neg hne]
  · unfold headerAt
    split
    · subst_vars
      have hbracket : (mark '[').Proper := proper_mark (by decide)
      have hpall : ∀ u ∈ mark '[' :: ts, u.Proper := by
        intro u hu
        rcases List.mem_cons.mp hu with rfl | hu
        · exact hbracket
        · exact hp u hu
      have hkeep : mark '[' :: r.imageWith g ts = r.imageWith g (mark '[' :: ts) :=
        (Rules.imageWith_keep (Rules.site?_eq_none_of_kind (by simp [mark]) ts)).symm
      rw [hkeep, Rules.enclosed?_imageWith hr hg hpall]
      cases hs : enclosed? '[' ']' (mark '[' :: ts) with
      | none => rfl
      | some p =>
        obtain ⟨block, left⟩ := p
        obtain ⟨-, -, gap, -, heq⟩ := (enclosed?_eq_some_iff role_close).mp hs
        have hpleft : ∀ u ∈ left, u.Proper := fun u hu => hpall u (by rw [heq]; simp [hu])
        simp only [Option.map_some, Option.bind_some, Prod.map_apply]
        rw [Rules.skipBlank_imageWith hr hg hpleft]
        exact threadCall_imageWith hr hg fun u hu => hpleft u (Rules.mem_skipBlank hu)
    · rfl
  · unfold headerAt
    split
    · rw [← List.cons_append, h.enclosed?_append (by decide) hp hz]
      cases hs : enclosed? '[' ']' (t :: ts) with
      | none => rfl
      | some p =>
        obtain ⟨block, left⟩ := p
        obtain ⟨hleft, hpleft⟩ := h.of_enclosed? (by decide) role_close hp hs
        exact threadCall_append hleft hpleft hz
    · rfl

end Texelwise
