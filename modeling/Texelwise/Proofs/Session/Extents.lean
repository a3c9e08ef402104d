import Texelwise.Proofs.Buffer.Contents
import Texelwise.Proofs.Program.Block
import Texelwise.Proofs.Program.Coordinates
import Texelwise.Proofs.Session.Aliasing

/-!
# What the entry point of a volume divides by

For a thread of three parameters the entry point divides by extents of the first output, which it
reads from the uniform block as signed words. The checks of a run look at textures, and an empty
volume has a texture too; so a run may go ahead with an extent of zero. Here is when it does not.

* `BindingTable.builtin?`: a built-in member as the shader reads it; `builtin?_eq_lookup`.
* `BindingTable.DivisorsPositive`: no divisor of the entry point is zero or negative.
* `divisorsPositive_iff`: the shapes of the first output for which this is so.
* `Session.divisorsPositive_iff_of_run`: the same for every run that succeeds; on devices of
  ordinary limits it holds for all volumes but the empty ones.
-/

namespace Texelwise

/-! ## Built-in members -/

/-- The value of a built-in member, as the shader reads it from the bytes of the block. -/
def BindingTable.builtin? (t : BindingTable) (bytes : List UInt8) (name : Text) : Option Int32 :=
  (t.builtins.find? fun m => m.name = name).map fun m =>
    (wordAt bytes (m.offset.toNat / 4)).toInt32

/-- The members that take part in the divisors of the entry point of a volume. -/
def divisorNames : List Text :=
  ["nc_thread_viewport_width".toList, "nc_thread_output_width".toList,
    "nc_thread_output_height".toList, "nc_thread_output_depth".toList]

/-- Every divisor of the entry point of a volume is at least one. -/
def BindingTable.DivisorsPositive (t : BindingTable) (bytes : List UInt8) : Prop :=
  ∀ name ∈ divisorNames, ∃ v, t.builtin? bytes name = some v ∧ 1 ≤ v

/-- A word is read as a positive number if it is one of 31 bits. -/
theorem one_le_signedWord {n : Nat} (hn : n ≤ maxSide) :
    1 ≤ signedWord n ↔ 0 < n ∧ n < 2 ^ 31 := by
  have hmax : maxSide < 2 ^ 32 := by decide
  rw [Int32.le_iff_toInt_le, toInt_signedWord hn, show (1 : Int32).toInt = 1 from rfl]
  split <;> omega

/-! ## The first output -/

section Block

variable {ds : List UniformDeclaration} {uniforms : Uniforms} {first : BufferDesc}
  {bytes : List UInt8} (h : Fits ds uniforms)
  (hcount : (BindingTable.memberTypes ds).length ≤ maxMembers)
  (hbytes : blockBytes (.ofDeclarations ds) first uniforms = .ok bytes)

include h hcount hbytes

/-- The first words of a block are those of the first output. -/
theorem wordAt_blockBytes {i : Nat} {w : UInt32} (hw : (companionWords first)[i]? = some w) :
    wordAt bytes i = w := by
  have hi := (List.getElem?_eq_some_iff.mp hw).1
  obtain ⟨n, -, heq⟩ := blockBytes_eq h hcount first
  obtain rfl := Except.ok.inj (heq.symm.trans hbytes)
  rw [wordAt_wordBytes, blockLines_snd h, List.getD_eq_getElem?_getD, List.append_assoc,
    List.getElem?_append_left hi, hw, Option.getD_some]

/-- The built-in members describe the first output. -/
theorem builtin?_eq_lookup (name : Text) :
    (BindingTable.ofDeclarations ds).builtin? bytes name = (builtinValues first).lookup name := by
  have hword : ∀ i w, (companionWords first)[i]? = some w →
      some (wordAt bytes i).toInt32 = some w.toInt32 :=
    fun i w hw => congrArg (fun w => some w.toInt32) (wordAt_blockBytes h hcount hbytes hw)
  have hnames : (BindingTable.ofDeclarations ds).builtins.map (·.name) = builtinNames := rfl
  by_cases hname : name ∈ builtinNames
  · simp only [builtinNames, List.mem_cons, List.not_mem_nil, or_false] at hname
    rcases hname with rfl | rfl | rfl | rfl | rfl
    · exact hword 0 _ rfl
    · exact hword 1 _ rfl
    · exact hword 2 _ rfl
    · exact hword 3 _ rfl
    · exact hword 4 _ rfl
  · have hfind :
        ((BindingTable.ofDeclarations ds).builtins.find? fun m => m.name = name) = none := by
      rw [List.find?_eq_none]
      intro m hm heq
      exact hname (hnames ▸ List.mem_map.mpr ⟨m, hm, of_decide_eq_true heq⟩)
    have hlookup : (builtinValues first).lookup name = none := by
      rw [List.lookup_eq_none_iff]
      intro e he
      have hfst := (List.of_mem_zip he).1
      refine bne_iff_ne.mpr fun heq => hname ?_
      rwa [heq]
    rw [BindingTable.builtin?, hfind, hlookup]
    rfl

/-- The divisors are positive if the sides of the texture and the extents are, as signed words. -/
theorem divisorsPositive_iff_words :
    (BindingTable.ofDeclarations ds).DivisorsPositive bytes ↔
      1 ≤ signedWord first.textureSize.width ∧ 1 ≤ signedWord first.extents.width ∧
        1 ≤ signedWord first.extents.height ∧ 1 ≤ signedWord first.extents.depth := by
  have hlookup : ∀ name v, (builtinValues first).lookup name = some v →
      ((∃ u, (BindingTable.ofDeclarations ds).builtin? bytes name = some u ∧ 1 ≤ u) ↔ 1 ≤ v) := by
    intro name v hv
    rw [builtin?_eq_lookup h hcount hbytes, hv]
    simp only [Option.some.injEq, exists_eq_left']
  simp only [BindingTable.DivisorsPositive, divisorNames, List.forall_mem_cons,
    hlookup "nc_thread_viewport_width".toList (signedWord first.textureSize.width) rfl,
    hlookup "nc_thread_output_width".toList (signedWord first.extents.width) rfl,
    hlookup "nc_thread_output_height".toList (signedWord first.extents.height) rfl,
    hlookup "nc_thread_output_depth".toList (signedWord first.extents.depth) rfl,
    List.not_mem_nil, false_imp_iff, implies_true, and_true]

end Block

/-! ## Volumes -/

theorem one_le_signedWord_texels {n : Nat} : 1 ≤ signedWord (texels n) ↔ 0 < n ∧ n < 2 ^ 31 := by
  rw [one_le_signedWord (Shape.texels_le n), texels]
  have hmax : 2 ^ 31 ≤ maxSide := by decide
  omega

theorem counted_volume_iff {w h d : Nat} :
    (Shape.volume w h d).textureSize.Counted ↔
      (Shape.volume w h d).textureSize.width ≤ largestSquareSide :=
  and_self_iff

section Volume

variable {w h d : Nat} {ds : List UniformDeclaration} {uniforms : Uniforms} {first : BufferDesc}
  {bytes : List UInt8} (h' : Fits ds uniforms)
  (hcount : (BindingTable.memberTypes ds).length ≤ maxMembers)
  (hbytes : blockBytes (.ofDeclarations ds) first uniforms = .ok bytes)
  (hextents : first.extents = (Shape.volume w h d).extents)
  (hsize : first.textureSize = (Shape.volume w h d).textureSize)

include h' hcount hbytes hextents hsize

/-- The divisors for a volume are positive if all its sides and that of its texture are positive
numbers of 31 bits. -/
theorem divisorsPositive_iff :
    (BindingTable.ofDeclarations ds).DivisorsPositive bytes ↔
      first.textureSize.width < 2 ^ 31 ∧ ∀ n ∈ [w, h, d], 0 < n ∧ n < 2 ^ 31 := by
  have hside : 1 ≤ signedWord first.textureSize.width ↔ first.textureSize.width < 2 ^ 31 := by
    have hfour : 4 ≤ first.textureSize.width := by
      rw [hsize]
      exact four_le_packSide _
    have hle : first.textureSize.width ≤ maxSide := by
      rw [hsize]
      exact packSide_le _
    rw [one_le_signedWord hle]
    omega
  rw [divisorsPositive_iff_words h' hcount hbytes, hside, hextents]
  simp only [Shape.extents, one_le_signedWord_texels, List.forall_mem_cons, List.not_mem_nil,
    false_imp_iff, implies_true, and_true]

/-- In a texture whose texels are counted in 31 bits, the divisors for a volume are positive if it
is not empty. -/
theorem divisorsPositive_iff_pos (hside : first.textureSize.width ≤ largestSquareSide) :
    (BindingTable.ofDeclarations ds).DivisorsPositive bytes ↔ 0 < w ∧ 0 < h ∧ 0 < d := by
  rw [divisorsPositive_iff h' hcount hbytes hextents hsize]
  simp only [List.forall_mem_cons, List.not_mem_nil, false_imp_iff, implies_true, and_true]
  constructor
  · rintro ⟨-, hw, hh, hd⟩
    exact ⟨hw.1, hh.1, hd.1⟩
  · rintro ⟨hw, hh, hd⟩
    have hlt := extents_lt_of_counted (counted_volume_iff.mpr (hsize ▸ hside)) hw hh hd
    have hlargest : largestSquareSide < 2 ^ 31 := by decide
    omega

end Volume

/-- In such a texture, the product of the first two extents of a volume that is not empty is a
positive number of 31 bits. -/
theorem product_of_side_le {w h d : Nat}
    (hside : (Shape.volume w h d).textureSize.width ≤ largestSquareSide) (hw : 0 < w) (hh : 0 < h)
    (hd : 0 < d) :
    let x := signedWord (Shape.volume w h d).extents.width
    let y := signedWord (Shape.volume w h d).extents.height
    1 ≤ x.toInt * y.toInt ∧ x.toInt * y.toInt < 2 ^ 31 := by
  have hcounted := counted_volume_iff.mpr hside
  obtain ⟨hwlt, hhlt, -, hwh⟩ := extents_lt_of_counted hcounted hw hh hd
  rw [extents_of_counted hcounted hw hh hd]
  dsimp only
  rw [toInt_signedWord_of_lt hwlt, toInt_signedWord_of_lt hhlt, ← Int.natCast_mul]
  have hpos := Nat.mul_pos hw hh
  omega

/-- A shape of rank three is a volume. -/
theorem Shape.exists_volume {r : Rank} (hr : r = .three) (s : Shape r) :
    ∃ w h d, s.dims = [w, h, d] ∧ s.extents = (Shape.volume w h d).extents ∧
      s.textureSize = (Shape.volume w h d).textureSize := by
  subst hr
  cases s with
  | volume w h d => exact ⟨w, h, d, rfl, rfl, rfl⟩

/-! ## Runs in a session -/

/-- The outputs of a run that succeeds have textures that the device can draw into. -/
theorem Program.side_le_of_run {p : Program} {limits : Limits} {outputs : List BufferDesc}
    {uniforms : Uniforms} {calls : List Call} (h : p.run limits outputs uniforms = .ok calls)
    {first : BufferDesc} (hfirst : outputs.head? = some first) :
    first.textureSize.width ≤ limits.maxTextureSide := by
  obtain ⟨rest, rfl⟩ := List.head?_eq_some_iff.mp hfirst
  simp only [Program.run] at h
  split at h
  · cases h
  · split at h
    · cases h
    · rename_i hfault
      simp only [firstFault?] at hfault
      split at hfault
      · cases hfault
      · rw [List.findSome?_eq_none_iff] at hfault
        have hnone := hfault (first, 0) (by simp)
        simp only [Option.map_eq_none_iff, attachmentFault?] at hnone
        split at hnone
        · cases hnone
        · split at hnone
          · cases hnone
          · omega

namespace Session

/-- A run that succeeds fills the uniform block with what its first output and values ask for. -/
theorem Sound.block_of_run {s : Session} (hs : s.Sound) {id : String} {outputs : List String}
    {values : List (Text × StepValue)} {o : Outcome}
    (h : s.attempt (.run id outputs values) = .ok o) {p : Program}
    (hp : s.programs.get? id = some p) :
    ∃ n b uniforms bytes, outputs.head? = some n ∧ s.buffers.get? n = some b ∧
      b.kind.rank = p.script.thread.rank ∧ b.textureSize.width ≤ s.limits.maxTextureSide ∧
      Fits p.script.uniforms uniforms ∧
      p.script.bindings = .ofDeclarations p.script.uniforms ∧
      blockBytes p.script.bindings b.describe uniforms = .ok bytes ∧
      o.calls.getLast? = some (.uniforms bytes) := by
  obtain ⟨q, bs, uniforms, hq, hbs, -, hrun, -⟩ := attempt_run_eq_ok h
  obtain rfl : p = q := Option.some.inj (hp.symm.trans hq)
  obtain ⟨haccepted, first, rest, bytes, hcons, hbytes, hcalls⟩ := Program.run_eq_ok hrun
  obtain ⟨source, hsource⟩ := hs.compiled hp
  cases hbs with
  | nil => cases hcons
  | @cons n b names bs hb _ =>
    obtain ⟨rfl, rfl⟩ := List.cons.inj hcons
    refine ⟨n, b, uniforms, bytes, rfl, hb, ?_, Program.side_le_of_run hrun rfl, haccepted.types,
      bindings_of_compile hsource, hbytes, ?_⟩
    · have hkind : b.kind ∈
          p.script.thread.outputs.map fun e => (⟨e, p.script.thread.rank⟩ : BufferKind) := by
        rw [← haccepted.kinds]
        exact List.mem_cons_self
      obtain ⟨e, -, he⟩ := List.mem_map.mp hkind
      rw [← he]
    · rw [hcalls, Program.runCalls, List.getLast?_append]
      rfl

/-- In every session that steps lead to, a run of a thread of three parameters that succeeds gives
the entry point positive divisors exactly if the side of the texture and all dimensions of the first
output are positive numbers of 31 bits. If the device has no larger texture than one whose texels
are counted in 31 bits, this is so exactly if the first output is not empty, and then the product
that the entry point divides by is a positive number of 31 bits as well. The program has no more
members than its block can have. -/
theorem divisorsPositive_iff_of_run (device : Device) (before : List Step) :
    let s := ((start device).run before).1
    ∀ id outputs values s' answer calls,
      s.step (.run id outputs values) = (s', .ok answer, calls) →
      ∀ p, s.programs.get? id = some p → p.script.thread.rank = .three →
        p.script.bindings.members.length ≤ maxMembers →
        ∃ n b w h d bytes, outputs.head? = some n ∧ s.buffers.get? n = some b ∧
          b.shape.dims = [w, h, d] ∧
          calls.getLast? = some (.uniforms bytes) ∧
          (p.script.bindings.DivisorsPositive bytes ↔
            b.textureSize.width < 2 ^ 31 ∧ ∀ n ∈ [w, h, d], 0 < n ∧ n < 2 ^ 31) ∧
          (device.limits.maxTextureSide ≤ largestSquareSide →
            (p.script.bindings.DivisorsPositive bytes ↔ 0 < w ∧ 0 < h ∧ 0 < d) ∧
            (p.script.bindings.DivisorsPositive bytes →
              ∃ x y, p.script.bindings.builtin? bytes "nc_thread_output_width".toList = some x ∧
                p.script.bindings.builtin? bytes "nc_thread_output_height".toList = some y ∧
                1 ≤ x.toInt * y.toInt ∧ x.toInt * y.toInt < 2 ^ 31)) := by
  intro s id outputs values s' answer calls hstep p hp hrank hcount
  have hs : s.Sound := sound_run (sound_start device) before
  cases ha : s.attempt (.run id outputs values) with
  | error e =>
    rw [step_of_attempt_error ha] at hstep
    cases hstep
  | ok o =>
    rw [step_of_attempt_ok ha] at hstep
    cases hstep
    obtain ⟨n, b, uniforms, bytes, hn, hb, hkind, hside, hfits, htable, hbytes, hcalls⟩ :=
      hs.block_of_run ha hp
    obtain ⟨w, h, d, hshape, hextents, hsize⟩ := Shape.exists_volume (hkind.trans hrank) b.shape
    rw [htable] at hcount hbytes
    rw [BindingTable.members_ofDeclarations, BlockMember.length_place] at hcount
    refine ⟨n, b, w, h, d, bytes, hn, hb, hshape, hcalls, ?_, fun hlimit => ?_⟩
    · rw [htable]
      exact divisorsPositive_iff hfits hcount hbytes hextents hsize
    · have hlimits : s.limits = device.limits := limits_run_start device before
      have hsmall : b.describe.textureSize.width ≤ largestSquareSide :=
        Nat.le_trans hside (hlimits ▸ hlimit)
      have hpos := divisorsPositive_iff_pos hfits hcount hbytes hextents hsize hsmall
      rw [htable]
      refine ⟨hpos, fun hdivisors => ?_⟩
      obtain ⟨hw, hh, hd⟩ := hpos.mp hdivisors
      have hproduct := product_of_side_le (hsize ▸ hsmall) hw hh hd
      rw [← show b.describe.extents = (Shape.volume w h d).extents from hextents] at hproduct
      refine ⟨_, _, builtin?_eq_lookup hfits hcount hbytes _,
        builtin?_eq_lookup hfits hcount hbytes _, hproduct⟩

/-- A volume that is not empty, as the only output. -/
theorem divisorsPositive_iff_of_run_full :
    let s := ((start (.plain {})).run [.create "a" ⟨.float, .three⟩ (.volume 2 3 4),
      .compile "p" "[float] thread (int x, int y, int z) \x7b\x7d".toList]).1
    ∃ p s' answer calls bytes, s.programs.get? "p" = some p ∧
      s.step (.run "p" ["a"] []) = (s', .ok answer, calls) ∧
      calls.getLast? = some (.uniforms bytes) ∧ p.script.bindings.DivisorsPositive bytes := by
  intro s
  have hspec := divisorsPositive_iff_of_run (.plain {})
    [.create "a" ⟨.float, .three⟩ (.volume 2 3 4),
      .compile "p" "[float] thread (int x, int y, int z) \x7b\x7d".toList] "p" ["a"] []
  have hprogram : (s.programs.get? "p").map (fun p =>
      (p.script.thread.rank, p.script.bindings.members.length)) = some (.three, 5) := by
    decide +kernel
  have hbuffer : (s.buffers.get? "a").map (·.shape.dims) = some [2, 3, 4] := by decide +kernel
  have hok : (s.step (.run "p" ["a"] [])).2.1.toOption.isSome = true := by decide +kernel
  obtain ⟨p, hp, hprogram⟩ := Option.map_eq_some_iff.mp hprogram
  obtain ⟨hrank, hcount⟩ := Prod.mk.inj hprogram
  obtain ⟨c, hc, hshape⟩ := Option.map_eq_some_iff.mp hbuffer
  rcases hstep : s.step (.run "p" ["a"] []) with ⟨s', given, calls⟩
  rw [hstep] at hok
  cases given with
  | error e => cases hok
  | ok answer =>
    obtain ⟨n, b, w, h, d, bytes, hn, hb, hbshape, hcalls, -, hsmall⟩ :=
      hspec s' answer calls hstep p hp hrank (by rw [hcount]; decide)
    refine ⟨p, s', answer, calls, bytes, hp, rfl, hcalls, (hsmall (by decide)).1.mpr ?_⟩
    obtain rfl : "a" = n := Option.some.inj hn
    obtain rfl : c = b := Option.some.inj (hc.symm.trans hb)
    cases hbshape.symm.trans hshape
    decide

/-- An empty volume as the only output: the run succeeds and the first extent is zero. -/
theorem zero_divisor_of_empty :
    let s := ((start (.plain {})).run [.create "a" ⟨.float, .three⟩ (.volume 0 5 5),
      .compile "p" "[float] thread (int x, int y, int z) \x7b\x7d".toList]).1
    ∃ p s' calls bytes, s.programs.get? "p" = some p ∧ p.script.thread.rank = .three ∧
      s.step (.run "p" ["a"] []) = (s', .ok .completed, calls) ∧
      calls.getLast? = some (.uniforms bytes) ∧
      p.script.bindings.builtin? bytes "nc_thread_output_width".toList = some 0 ∧
      ¬ p.script.bindings.DivisorsPositive bytes := by
  intro s
  have hprogram : (s.programs.get? "p").map (fun p => (p.script.thread.rank,
      (s.step (.run "p" ["a"] [])).2.1.toOption,
      (s.step (.run "p" ["a"] [])).2.2.getLast?.map fun c => match c with
        | .uniforms bytes =>
          p.script.bindings.builtin? bytes "nc_thread_output_width".toList
        | _ => none)) = some (.three, some .completed, some (some 0)) := by decide +kernel
  obtain ⟨p, hp, hprogram⟩ := Option.map_eq_some_iff.mp hprogram
  rcases hstep : s.step (.run "p" ["a"] []) with ⟨s', given, calls⟩
  rw [hstep] at hprogram
  simp only [Prod.mk.injEq] at hprogram
  obtain ⟨hrank, hgiven, hlast⟩ := hprogram
  obtain ⟨call, hcall, hword⟩ := Option.map_eq_some_iff.mp hlast
  cases given with
  | error e => cases hgiven
  | ok answer =>
    obtain rfl : answer = .completed := Option.some.inj hgiven
    cases call with
    | uniforms bytes =>
      refine ⟨p, s', calls, bytes, hp, hrank, rfl, hcall, hword, fun hpos => ?_⟩
      obtain ⟨v, hv, hone⟩ := hpos "nc_thread_output_width".toList (by decide)
      obtain rfl : 0 = v := Option.some.inj (hword.symm.trans hv)
      exact absurd hone (by decide)
    | _ => cases hword

end Session

end Texelwise
