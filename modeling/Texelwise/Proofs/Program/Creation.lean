import Texelwise.Program.Basic
import Texelwise.Proofs.Kernel.Slots
import Texelwise.Proofs.Result

/-!
# What holds of every program

A program is made from a script that compiles and that the device has room for. What its runs rely
on is settled then.

* `outputs_ne_nil_of_compile`: a compiled script has an output.
* `nodup_names_of_compile`: it declares every name once.
* `Program.create_eq_ok`: a program has a compiled script that the device takes and has room for.
* `Program.readsTexcoord_of_create`: which vertices a program reads is up to the vertex shader.
-/

namespace Texelwise

/-! ## Interfaces -/

/-- However little stands between the brackets, it is one output at least. -/
theorem readOutputs_ne_nil {t : Text} {outputs : List ElementKind}
    (h : readOutputs t = .ok outputs) : outputs ≠ [] := by
  have hlength := (forall₂_of_mapM h).length_eq
  rintro rfl
  rw [List.length_map, List.length_nil, List.length_eq_zero_iff] at hlength
  exact Text.cut_ne_nil ',' t hlength

theorem outputs_ne_nil_of_readHeader {outputs params : Text} {thread : ThreadSignature}
    (h : readHeader outputs params = .ok thread) : thread.outputs ≠ [] := by
  obtain ⟨elements, helements, h⟩ := ok_of_bind h
  have hne := readOutputs_ne_nil helements
  split at h
  · cases h
    exact hne
  · cases h

theorem outputs_ne_nil_of_readThread {code : Text} {thread : ThreadSignature}
    (h : readThread code = .ok thread) : thread.outputs ≠ [] := by
  obtain ⟨found, -, h⟩ := ok_of_bind h
  split at h
  · exact outputs_ne_nil_of_readHeader h
  · obtain ⟨empty, -, h⟩ := ok_of_bind h
    cases h
  · cases h

/-- Declarations that are read have new names, each of them once. -/
theorem nodup_of_readDeclarations {seen : List Text} {found : List Occurrence}
    {ds : List UniformDeclaration} (h : readDeclarations seen found = .ok ds) :
    (ds.map (·.name)).Nodup ∧ ∀ d ∈ ds, d.name ∉ seen := by
  induction found generalizing seen ds with
  | nil =>
    cases h
    exact ⟨List.nodup_nil, fun d hd => absurd hd List.not_mem_nil⟩
  | cons o found ih =>
    rw [readDeclarations] at h
    split at h
    · cases h
    · split at h
      · cases h
      · rename_i type _ hnew
        cases hrest : readDeclarations (o.capture 1 :: seen) found with
        | error e => rw [hrest] at h; cases h
        | ok rest =>
          rw [hrest] at h
          cases h
          obtain ⟨hnodup, hfresh⟩ := ih hrest
          refine ⟨List.nodup_cons.mpr ⟨fun hmem => ?_, hnodup⟩, fun d hd => ?_⟩
          · obtain ⟨d, hd, hname⟩ := List.mem_map.mp hmem
            exact hfresh d hd (hname ▸ List.mem_cons_self)
          · rcases List.mem_cons.mp hd with rfl | hd
            · exact hnew
            · exact fun hmem => hfresh d hd (List.mem_cons_of_mem _ hmem)

/-! ## Scripts -/

/-- A compiled script offers what its text without comments offers. -/
theorem ofText_of_compile {source : Text} {script : Script} (h : compile source = .ok script) :
    Interface.ofText (Text.stripComments source) = .ok ⟨script.thread, script.uniforms⟩ := by
  obtain ⟨i, hi⟩ := exists_interface_of_compile h
  rw [compile_of_interface hi] at h
  obtain ⟨hthread, huniforms, -, -⟩ := finishScript_eq_ok h
  rw [hi, hthread, huniforms]

theorem outputs_ne_nil_of_compile {source : Text} {script : Script}
    (h : compile source = .ok script) : script.thread.outputs ≠ [] := by
  obtain ⟨thread, hthread, h⟩ := ok_of_bind (ofText_of_compile h)
  obtain ⟨uniforms, -, h⟩ := ok_of_bind h
  cases h
  exact outputs_ne_nil_of_readThread hthread

theorem nodup_names_of_compile {source : Text} {script : Script}
    (h : compile source = .ok script) : (script.uniforms.map (·.name)).Nodup := by
  obtain ⟨thread, -, h⟩ := ok_of_bind (ofText_of_compile h)
  obtain ⟨uniforms, huniforms, h⟩ := ok_of_bind h
  cases h
  obtain ⟨found, -, hfound⟩ := ok_of_bind huniforms
  exact (nodup_of_readDeclarations hfound).1

/-- All programs share one vertex shader. -/
theorem vertex_of_compile {source : Text} {script : Script} (h : compile source = .ok script) :
    script.vertex = Shader.vertex := by
  obtain ⟨i, hi⟩ := exists_interface_of_compile h
  rw [compile_of_interface hi] at h
  exact (finishScript_eq_ok h).2.2.2

/-! ## Programs -/

namespace Program

variable {device : Device} {source : Text} {p : Program}

/-- A program has a compiled script whose shaders the device takes and for which it has room. -/
theorem create_eq_ok (h : create device source = .ok p) :
    compile source = .ok p.script ∧ exceededLimit? device.limits p.script = none ∧
      ∃ vertex, device.check .vertex p.script.vertex = .ok vertex ∧
        p.readsTexcoord = vertex.inputs.contains texcoordLocation := by
  obtain ⟨script, hscript, h⟩ := ok_of_bind h
  obtain ⟨vertex, hvertex, h⟩ := ok_of_bind h
  obtain ⟨fragment, -, h⟩ := ok_of_bind h
  split at h
  · cases h
  · cases h
    exact ⟨ok_of_mapError hscript, ‹_›, vertex, ok_of_mapError hvertex, rfl⟩

/-- A program reads texture coordinates on a device where the vertex shader does. -/
theorem readsTexcoord_of_create (hd : device.ReadsTexcoord) (h : create device source = .ok p) :
    p.readsTexcoord = true := by
  obtain ⟨hscript, -, vertex, hvertex, hreads⟩ := create_eq_ok h
  rw [vertex_of_compile hscript] at hvertex
  rw [hreads]
  exact List.contains_iff_mem.mpr (hd vertex hvertex)

end Program

end Texelwise
