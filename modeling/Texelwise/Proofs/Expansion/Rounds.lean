import Mathlib.Algebra.GroupWithZero.Nat
import Texelwise.Proofs.Expansion.Passes

/-!
# Rounds of reads

Reads of a buffer are replaced from the outside in until none is left. Each round takes opening
brackets away, and all rounds together are one image.

* `Inert`: texts that passes leave alone, whatever follows.
* `image_eq_self_or_count_lt`: a round changes nothing or takes brackets away.
* `sampleReads_eq`: the rounds are an image with all nested reads replaced.
-/

namespace Texelwise

open Token

/-! ## Texts that passes leave alone -/

/-- The pattern starts at names with a point or an opening bracket after them. -/
def Sweep.Selects {β : Type} (s : Sweep β) : Prop :=
  ∀ t ts, (∀ u ∈ t :: ts, u.Proper) → s.pattern.read? (t :: ts) ≠ none →
    t.kind = .ident ∧ ∃ c left, (c = '.' ∨ c = '[') ∧ afterMark? c ts = some left

/-- Passes leave the text as it is, whatever follows. -/
def Inert (x : Text) : Prop :=
  ∀ (β : Type) (s : Sweep β), s.Selects → s.Turns x (x.flatMap s.keep)

theorem inert_nil : Inert [] := fun _ _ _ => Sweep.Turns.nil

theorem Inert.append {x y : Text} (hx : Inert x) (hy : Inert y) : Inert (x ++ y) := by
  intro β s hs
  rw [List.flatMap_append]
  exact (hx β s hs).append (hy β s hs)

theorem Inert.flatMap {ι : Type} {l : List ι} {c : ι → Text} (h : ∀ i ∈ l, Inert (c i)) :
    Inert (l.flatMap c) := by
  induction l with
  | nil => exact inert_nil
  | cons i l ih =>
    rw [List.flatMap_cons]
    exact (h i List.mem_cons_self).append (ih fun j hj => h j (List.mem_cons_of_mem i hj))

theorem inert_blank {w : Text} (hw : ∀ c ∈ w, Text.isBlank c = true) : Inert w := by
  intro β s hs
  refine Sweep.Turns.blank (fun t ts hp hspace => ?_) hw
  by_contra hread
  have hkind := (hs t ts hp hread).1
  rw [hspace] at hkind
  cases hkind

theorem mem_of_mem_tokenize {x : Text} {u : Token} (hu : u ∈ tokenize x) {c : Char}
    (hc : c ∈ u.text) : c ∈ x := by
  rw [← textOf_tokenize x]
  exact List.mem_flatMap.mpr ⟨u, hu, hc⟩

theorem inert_mark {c : Char} (hc : isCut c = true) : Inert [c] := by
  intro β s hs
  refine Sweep.Turns.keep (x := []) hc fun zs hzs pre t post heq => ?_
  rw [List.nil_append, tokenize_mark hc, tokenize_nil] at heq
  have ht : t = mark c := by
    have : t ∈ [mark c] := by rw [heq]; simp
    exact List.mem_singleton.mp this
  subst ht
  have hpost : post = [] := by
    have hlen := congrArg List.length heq
    simp only [List.length_cons, List.length_nil, List.length_append] at hlen
    exact List.length_eq_zero_iff.mp (by omega)
  subst hpost
  by_contra hread
  have hproper : ∀ u ∈ mark c :: ([] ++ zs), u.Proper := by
    intro u hu
    rcases List.mem_cons.mp hu with rfl | hu
    · exact proper_mark hc
    · exact hzs u hu
  have hkind := (hs _ _ hproper hread).1
  cases hkind

/-- A mark that stands after a gap is among the tokens `post` if these follow a word and end with
a mark, as neither the word nor the gap is one. -/
theorem Gap.mark_mem_of_getLast? {gap post zs left : List Token} {t : Token} {c d : Char}
    (hgap : Gap gap) (happ : post ++ zs = gap ++ mark d :: left) (hkind : t.kind = .ident)
    (hlast : (t :: post).getLast? = some (mark c)) : mark d ∈ post := by
  cases post with
  | nil =>
    obtain rfl : t = mark c := by simpa using hlast
    cases hkind
  | cons u us =>
    rcases hgap.eq_nil_or with rfl | ⟨b, rfl, hb⟩
    · obtain ⟨rfl, -⟩ := List.cons.inj happ
      exact List.mem_cons_self
    · obtain ⟨rfl, htail⟩ := List.cons.inj happ
      cases us with
      | nil =>
        obtain rfl : u = mark c := by simpa using hlast
        cases hb
      | cons v vs =>
        obtain ⟨rfl, -⟩ := List.cons.inj htail
        exact List.mem_cons_of_mem u List.mem_cons_self

/-- A text without points and opening brackets that ends with a mark is left alone. -/
theorem inert_of_forall {x : Text} {c : Char} (hc : isCut c = true) (hne : c ≠ '[')
    (hx : ∀ d ∈ x, d ≠ '.' ∧ d ≠ '[') : Inert (x ++ [c]) := by
  have hchars : ∀ d ∈ x ++ [c], d ≠ '.' ∧ d ≠ '[' := by
    intro d hd
    rcases List.mem_append.mp hd with hd | hd
    · exact hx d hd
    · rw [List.mem_singleton.mp hd]
      exact ⟨by rintro rfl; exact absurd hc (by decide), hne⟩
  intro β s hs
  refine Sweep.Turns.keep hc fun zs hzs pre t post heq => ?_
  have htokens : ∀ u ∈ t :: post, u ∈ tokenize (x ++ [c]) := fun u hu => by
    rw [heq]
    exact List.mem_append_right _ hu
  have hproper : ∀ u ∈ t :: (post ++ zs), u.Proper := by
    intro u hu
    rcases List.mem_append.mp (List.cons_append ▸ hu) with hu | hu
    · exact (separated_tokenize (x ++ [c])).proper (htokens u hu)
    · exact hzs u hu
  by_contra hread
  obtain ⟨hkind, d, left, hd, hafter⟩ := hs t (post ++ zs) hproper hread
  obtain ⟨gap, hgap, happ⟩ := afterMark?_eq_some_iff.mp hafter
  have hlast : (t :: post).getLast? = some (mark c) := by
    have htokenize : tokenize (x ++ [c]) = tokenize x ++ [mark c] := by
      rw [tokenize_append_mark hc, tokenize_nil]
    have hends := congrArg List.getLast? (heq.symm.trans htokenize)
    rwa [List.getLast?_append_of_ne_nil _ (List.cons_ne_nil t post), List.getLast?_concat] at hends
  have hmem := hgap.mark_mem_of_getLast? happ hkind hlast
  have hin : d ∈ x ++ [c] :=
    mem_of_mem_tokenize (htokens _ (List.mem_cons_of_mem t hmem)) (List.mem_singleton_self d)
  rcases hd with rfl | rfl
  · exact (hchars _ hin).1 rfl
  · exact (hchars _ hin).2 rfl

/-! ## Opening brackets -/

/-- Each opening bracket of a text is a token of its own. -/
theorem count_textOf {ts : List Token} (hp : ∀ u ∈ ts, u.Proper) :
    (textOf ts).count '[' = (hits (textAt ['[']) ts).length := by
  have hmark : isCut '[' = true := by decide
  have htoken : ∀ t : Token, t.Proper →
      t.text.count '[' = ((textAt ['['] t []).toList).length := by
    intro t ht
    by_cases htext : t.text = ['[']
    · simp [textAt, htext]
    · have hnone : textAt ['['] t [] = none := by simp [textAt, htext]
      rw [hnone]
      exact List.count_eq_zero.mpr fun hmem => htext (ht.text_eq_of_mem hmark hmem)
  induction ts with
  | nil => rfl
  | cons t ts ih =>
    rw [textOf_cons, List.count_append, hits, List.length_append,
      ih fun u hu => hp u (List.mem_cons_of_mem t hu), htoken t (hp t List.mem_cons_self)]
    rfl

theorem count_sampleTokens {name : Text} (hname : isIdentifier name = true) (kind : BufferKind)
    {blocks : List (List Token)} (h : ∀ b ∈ blocks, Clean b) :
    (textOf (sampleTokens name kind (blocks.map trimBlanks))).count '[' =
      (blocks.map fun b => (textOf b).count '[').sum := by
  have hprobe : Probe (textAt ['[']) := probe_textAt (by decide)
  have htrim : ∀ i ∈ blocks.map trimBlanks, Clean i := by
    intro i hi
    obtain ⟨b, hb, rfl⟩ := List.mem_map.mp hi
    exact (h b hb).trimBlanks
  have hhits := hprobe.hits_sampleTokens hname kind htrim []
  rw [List.append_nil, hits_nil, List.append_nil] at hhits
  rw [count_textOf (clean_sampleTokens hname kind htrim).proper, hhits, List.length_flatMap,
    List.map_map]
  congr 1
  refine List.map_congr_left fun b hb => ?_
  rw [Function.comp_apply, hprobe.hits_trimBlanks (h b hb), count_textOf (h b hb).proper]

/-- Subscripts have the brackets of their indices and one more for each. -/
theorem Subscripts.count_le {blocks : List (List Token)} {tail : List Token}
    (h : Subscripts blocks tail) :
    (blocks.map fun b => (textOf b).count '[').sum + blocks.length ≤ (textOf tail).count '[' := by
  induction h with
  | nil => simp
  | @cons gap block tail blocks _ _ _ _ ih =>
    have htext : textOf (gap ++ mark '[' :: (block ++ mark ']' :: tail)) =
        textOf gap ++ ('[' :: (textOf block ++ (']' :: textOf tail))) := by simp [mark]
    rw [htext, List.map_cons, List.sum_cons, List.length_cons, List.count_append,
      List.count_cons_self, List.count_append, List.count_cons_of_ne (by decide)]
    omega

/-- Replacing reads changes nothing or takes opening brackets away. -/
theorem image_eq_self_or_count_lt {name : Text} (hname : isIdentifier name = true)
    (kind : BufferKind) {ts : List Token} (hp : ∀ u ∈ ts, u.Proper) :
    ((readRule name kind).image ts = ts ∧ (readRule name kind).imageWith id ts = ts) ∨
      (textOf ((readRule name kind).imageWith id ts)).count '[' < (textOf ts).count '[' := by
  induction ts using (readRule name kind).induction with
  | nil => simp
  | keep t ts hnone ih =>
    rw [Rules.image_keep hnone, Rules.imageWith_keep hnone, textOf_cons, textOf_cons,
      List.count_append, List.count_append]
    rcases ih ts (Nat.le_refl _) (fun u hu => hp u (List.mem_cons_of_mem t hu)) with
      ⟨himage, hwith⟩ | hlt
    · exact .inl ⟨by rw [himage], by rw [hwith]⟩
    · exact .inr (by omega)
  | site t s tail rest hkind hs ih =>
    have hrest : (textOf ((readRule name kind).imageWith id rest)).count '[' ≤
        (textOf rest).count '[' := by
      rcases ih rest (by simp) (fun u hu => hp u (by simp [hu])) with ⟨-, hwith⟩ | hlt
      · rw [hwith]
      · omega
    have hsite := Rules.site?_append hkind hs rest
    cases hs with
    | field _ _ _ _ hw => cases hw
    | output _ _ _ _ _ hw => cases hw
    | @read kind' blocks _ ht hread hlen hsubs =>
      have hstands : (readRule name kind).Stands t (.read kind' blocks) tail :=
        .read ht hread hlen hsubs
      have hclean : ∀ b ∈ blocks, Clean b := fun b hb =>
        hstands.clean (fun u hu => hp u (by simp [hu])) hb
      have htext : t.text = name := by
        have := mem_of_lookup hread
        simp only [readRule, List.mem_singleton, Prod.mk.injEq] at this
        exact this.1
      have hident : isIdentifier t.text = true := by rw [htext, hname]
      -- The sample has the brackets of the indices, the read has one more for each.
      have hcount := count_sampleTokens hident kind' hclean
      have htail := hsubs.count_le
      have hpos := Rank.toNat_pos kind'.rank
      have hemit : Rules.emit t id (.read kind' blocks) =
          sampleTokens t.text kind' (blocks.map trimBlanks) := rfl
      rw [Rules.imageWith_site hsite, hemit, textOf_append, List.count_append, hcount,
        textOf_cons, textOf_append, List.count_append, List.count_append]
      exact .inr (by omega)

/-! ## Reads -/

theorem sane_readRule {name : Text} (hname : isIdentifier name = true) (hext : name ∉ extentFields)
    (kind : BufferKind) : (readRule name kind).Sane := by
  refine ⟨fun e he => ?_, fun e he => absurd he List.not_mem_nil, fun _ _ h => ?_⟩
  · rw [List.mem_singleton.mp he]
    exact ⟨hname, hext⟩
  · cases h

theorem selects_bufferRead (name : Text) (kind : BufferKind) (hname : isIdentifier name = true)
    (f : Occurrence → Text) :
    (Sweep.replace (Pattern.bufferRead name kind.rank) f).Selects := by
  intro t ts hp hread
  have hpts : ∀ u ∈ ts, u.Proper := fun u hu => hp u (List.mem_cons_of_mem t hu)
  have hshape := Pattern.read?_bufferRead hpts t name kind.rank
  rw [show (Sweep.replace (Pattern.bufferRead name kind.rank) f).pattern.read? (t :: ts) = _
    from hshape] at hread
  by_cases htext : t.text = name
  · rw [if_pos htext] at hread
    refine ⟨(hp t List.mem_cons_self).kind_of_text_eq htext hname, ?_⟩
    cases hs : subscripts? kind.rank.toNat ts with
    | none => rw [hs] at hread; exact absurd rfl hread
    | some p =>
      obtain ⟨blocks, rest⟩ := p
      obtain ⟨tail, htail, hlen, rfl⟩ := subscripts?_eq_some_iff.mp hs
      have hpos : 0 < blocks.length := by
        rw [hlen]
        exact Rank.toNat_pos kind.rank
      obtain ⟨left, hleft⟩ := htail.afterMark? (List.ne_nil_of_length_pos hpos) rest
      exact ⟨'[', left, .inr rfl, hleft⟩
  · rw [if_neg htext] at hread
    exact absurd rfl hread

/-- One round replaces the reads of a buffer that stand in no index of another. -/
theorem emit_walk_bufferRead {name : Text} (hname : isIdentifier name = true)
    (hthread : name ≠ threadWord) (kind : BufferKind) {x : Text} (hx : Inert x) {ts : List Token}
    (hts : Spaced ts) :
    ((Pattern.bufferRead name kind.rank).walk (tokenize (x ++ textOf ts))).flatMap
        (Piece.emit fun o => sampleText name kind o.captures) =
      x ++ textOf ((readRule name kind).imageWith id ts) := by
  have hsweep : (Sweep.replace (Pattern.bufferRead name kind.rank)
      fun o => sampleText name kind o.captures).of (x ++ textOf ts) =
        x ++ textOf ((readRule name kind).imageWith id ts) := by
    rw [hx _ _ (selects_bufferRead name kind hname _), Sweep.of, tokenize_textOf hts.separated,
      along_replace rfl (follows_readRule hname hthread kind) fun u hu => hts.proper hu]
    congr 1
    simp [Sweep.replace]
  rw [Sweep.emit_eq_piece (Pattern.bufferRead name kind.rank)]
  exact hsweep

theorem words_readRule {name : Text} {kind : BufferKind} (t : Token) (w : Text) (tail : List Token)
    (h : (readRule name kind).Stands t (.word w) tail) :
    ∀ u ∈ tokenize w, u.kind = .ident → (readRule name kind).Ignores u.text := by
  cases h with
  | field _ _ _ _ hw => cases hw
  | output _ _ _ _ _ hw => cases hw

/-- The rounds of `sampleReads` replace all reads of a buffer, also those in indices. -/
theorem sampleReads_eq {name : Text} {hbracket : '[' ∉ name} (hname : isIdentifier name = true)
    (hthread : name ≠ threadWord) (hext : name ∉ extentFields) (kind : BufferKind) {x : Text}
    (hx : Inert x) {ts : List Token} (hts : Spaced ts) :
    sampleReads name hbracket kind (x ++ textOf ts) =
      .ok (x ++ textOf ((readRule name kind).image ts)) := by
  have hconsumes : (Pattern.bufferRead name kind.rank).Consumes = true := rfl
  have hsane := sane_readRule hname hext kind
  -- Every round that finds a read takes opening brackets away.
  induction hn : (textOf ts).count '[' using Nat.strongRecOn generalizing ts with
  | ind n ih =>
    have hp : ∀ u ∈ ts, u.Proper := fun u hu => hts.proper hu
    have hpieces := Pattern.pieces_eq_walk hconsumes (x ++ textOf ts)
    have hspaced : Spaced ((readRule name kind).imageWith id ts) :=
      Rules.spaced_imageWith hsane (fun _ hb => hb) (fun _ _ hb => hb) hts
    have hround := emit_walk_bufferRead hname hthread kind hx hts
    by_cases hnone : ((Pattern.bufferRead name kind.rank).walk
        (tokenize (x ++ textOf ts))).filterMap Piece.occurrence? = []
    · rw [Piece.flatMap_emit_of_none hnone, Pattern.tokensOf_walk hconsumes,
        textOf_tokenize] at hround
      have hsame := List.append_cancel_left hround
      rw [sampleReads_of_none hpieces hnone]
      rcases image_eq_self_or_count_lt hname kind hp with ⟨himage, -⟩ | hlt
      · rw [himage]
      · rw [← hsame] at hlt
        exact absurd hlt (Nat.lt_irrefl _)
    · have hless := count_round_lt hbracket kind hpieces hnone
      rw [hround, List.count_append, List.count_append] at hless
      rw [sampleReads_of_some hpieces hnone, hround, ih _ (by omega) hspaced rfl,
        Rules.image_imageWith_id hsane words_readRule hp]

end Texelwise
