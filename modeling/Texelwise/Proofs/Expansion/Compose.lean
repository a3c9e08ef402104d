import Texelwise.Proofs.Expansion.Reading

/-!
# Images of images

The compiler replaces one kind of site after another. Two images one after the other are one image
with the sites of both, where the second one finds nothing in what the first one puts in place.

* `Rules.Ignores`: words at which no site starts.
* `Rules.image_imageWith`: an image of the outermost sites, and then one of what is left.
* `Rules.image_image`: an image of all sites, and then one with other rules.
-/

namespace Texelwise

open Token

namespace Rules

variable {r ρ σ τ : Rules} {g : List Token → List Token}

/-- No site starts at the word. -/
def Ignores (r : Rules) (w : Text) : Prop :=
  w ≠ threadWord ∧ r.reads.lookup w = none ∧ ∀ f, r.fields.lookup (w, f) = none

theorem Ignores.site?_eq_none {t : Token} (h : r.Ignores t.text) (ts : List Token) :
    r.site? t ts = none := by
  obtain ⟨hthread, hreads, hfields⟩ := h
  unfold site?
  split
  · rfl
  · split
    · rw [hfields]
      rfl
    · rw [hreads]
      rfl

theorem image_append_of_ignores {us : List Token}
    (h : ∀ u ∈ us, u.kind = .ident → r.Ignores u.text) (zs : List Token) :
    r.image (us ++ zs) = us ++ r.image zs := by
  induction us with
  | nil => rfl
  | cons u us ih =>
    have hsite : r.site? u (us ++ zs) = none := by
      by_cases hu : u.kind = .ident
      · exact (h u List.mem_cons_self hu).site?_eq_none _
      · exact site?_eq_none_of_kind hu _
    rw [List.cons_append, image_keep hsite, ih fun v hv => h v (List.mem_cons_of_mem u hv),
      List.cons_append]

/-- A site whose indices are changed by `f` is emitted as the site itself, with `h` after `f` for
its indices. -/
theorem emit_map_eq {f h h' : List Token → List Token} {t : Token} {s : Site}
    (heq : ∀ kind blocks, s = .read kind blocks → ∀ b ∈ blocks, h (f b) = h' b) :
    emit t h (s.map f) = emit t h' s := by
  cases s with
  | word w => rfl
  | read kind blocks =>
    simp only [Site.map, emit, List.map_map]
    congr 1
    refine List.map_congr_left fun b hb => ?_
    rw [Function.comp_apply, heq kind blocks rfl b hb]

/-- In the image of what is emitted for a site, the indices are what they are in the end. -/
theorem image_emit_append (hσ : σ.Sane) (hρ : ρ.Sane) (hg : KeepsAll g)
    (hwords : ∀ t w tail, σ.Stands t (.word w) tail →
      ∀ u ∈ tokenize w, u.kind = .ident → ρ.Ignores u.text)
    {t : Token} {s : Site} {tail : List Token} (hs : σ.Stands t s tail)
    (htail : ∀ u ∈ tail, u.Proper)
    (hτ : ∀ b, b.length < tail.length → Clean b → ρ.image (g b) = τ.image b) (zs : List Token) :
    ρ.image (emit t g s ++ zs) = emit t τ.image s ++ ρ.image zs := by
  cases s with
  | word w => exact image_append_of_ignores (hwords t w tail hs) zs
  | read kind blocks =>
    have hclean : ∀ b ∈ blocks, Clean b := fun b hb => hs.clean htail hb
    have hname : isIdentifier t.text = true := by
      cases hs with
      | read _ hread => exact (hσ.reads _ (mem_of_lookup hread)).1
    have hindices : ∀ i ∈ blocks.map fun b => trimBlanks (g b), Clean i := by
      intro i hi
      obtain ⟨b, hb, rfl⟩ := List.mem_map.mp hi
      exact (hg b (hclean b hb)).trimBlanks
    rw [emit, image_sampleTokens hname kind hindices, emit, List.map_map]
    congr 2
    refine List.map_congr_left fun b hb => ?_
    rw [Function.comp_apply, image_trimBlanks hρ (hg b (hclean b hb)),
      hτ b (hs.length_lt hb) (hclean b hb)]

/-- An image of the outermost sites of `σ`, and then one with `ρ`, is an image with both. -/
theorem image_imageWith (hσ : σ.Sane) (hρ : ρ.Sane) (hg : KeepsAll g)
    (hor : ∀ t ts, τ.site? t ts = (σ.site? t ts).or (ρ.site? t ts))
    (hwords : ∀ t w tail, σ.Stands t (.word w) tail →
      ∀ u ∈ tokenize w, u.kind = .ident → ρ.Ignores u.text)
    {ts : List Token} (hp : ∀ u ∈ ts, u.Proper)
    (hτ : ∀ b, b.length < ts.length → Clean b → ρ.image (g b) = τ.image b) :
    ρ.image (σ.imageWith g ts) = τ.image ts := by
  induction ts using σ.induction with
  | nil => simp
  | keep t ts hnone ih =>
    have hpts : ∀ u ∈ ts, u.Proper := fun u hu => hp u (List.mem_cons_of_mem t hu)
    have hih : ∀ us : List Token, us.length ≤ ts.length → (∀ u ∈ us, u.Proper) →
        ρ.image (σ.imageWith g us) = τ.image us := by
      intro us hlen hpus
      exact ih us hlen hpus fun b hb => hτ b (by rw [List.length_cons]; omega)
    have hsite := site?_imageWith (ρ := ρ) hσ hg hpts t
    rw [imageWith_keep hnone]
    -- Nothing of `σ` starts here, so what starts here in the end is what `ρ` finds.
    cases hs : ρ.site? t ts with
    | none =>
      rw [hs] at hsite
      have hboth : τ.site? t ts = none := by rw [hor, hnone, hs]; rfl
      rw [image_keep hsite, image_keep hboth, hih ts (Nat.le_refl _) hpts]
    | some p =>
      obtain ⟨s, rest⟩ := p
      rw [hs] at hsite
      have hboth : τ.site? t ts = some (s, rest) := by rw [hor, hnone, hs]; rfl
      obtain ⟨hkind, tail, hstands, rfl⟩ := site?_eq_some_iff.mp hs
      have hrest := hih rest (by simp) fun u hu => hpts u (by simp [hu])
      rw [image_site hsite, image_site hboth, hrest]
      refine congrArg (· ++ τ.image rest) (emit_map_eq ?_)
      rintro kind blocks rfl b hb
      have hclean := hstands.clean (fun u hu => hpts u (by simp [hu])) hb
      have hlen := hstands.length_lt hb
      exact hih b (by rw [List.length_append]; omega) hclean.proper
  | site t s tail rest hkind hs ih =>
    have hsite := site?_append hkind hs rest
    have hboth : τ.site? t (tail ++ rest) = some (s, rest) := by rw [hor, hsite]; rfl
    have hrest := ih rest (by simp) (fun u hu => hp u (by simp [hu]))
      fun b hb => hτ b (by rw [List.length_cons, List.length_append]; omega)
    rw [imageWith_site hsite, image_site hboth, ← hrest]
    refine image_emit_append hσ hρ hg hwords hs (fun u hu => hp u (by simp [hu])) (fun b hb => ?_) _
    exact hτ b (by rw [List.length_cons, List.length_append]; omega)

/-- An image with `σ`, and then one with `ρ`, is an image with both. -/
theorem image_image (hσ : σ.Sane) (hρ : ρ.Sane)
    (hor : ∀ t ts, τ.site? t ts = (σ.site? t ts).or (ρ.site? t ts))
    (hwords : ∀ t w tail, σ.Stands t (.word w) tail →
      ∀ u ∈ tokenize w, u.kind = .ident → ρ.Ignores u.text)
    {ts : List Token} (hp : ∀ u ∈ ts, u.Proper) : ρ.image (σ.image ts) = τ.image ts := by
  induction hn : ts.length using Nat.strongRecOn generalizing ts with
  | ind n ih =>
    rw [image_eq σ ts]
    refine image_imageWith hσ hρ (fun b hb => clean_image hσ hb) hor hwords hp ?_
    intro b hb hclean
    exact ih b.length (by omega) hclean.proper rfl

/-- Replacing the outermost sites and then all that are left is replacing all sites. -/
theorem image_imageWith_id (hr : r.Sane)
    (hwords : ∀ t w tail, r.Stands t (.word w) tail →
      ∀ u ∈ tokenize w, u.kind = .ident → r.Ignores u.text)
    {ts : List Token} (hp : ∀ u ∈ ts, u.Proper) : r.image (r.imageWith id ts) = r.image ts :=
  image_imageWith hr hr (fun _ hb => hb) (fun _ _ => Option.or_self.symm) hwords hp
    fun _ _ _ => rfl

end Rules

end Texelwise
