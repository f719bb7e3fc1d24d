import TreeCompiler.Proofs.Asm.Renaming
import TreeCompiler.Proofs.Asm.Success
import TreeCompiler.Proofs.Lower.Renaming

namespace TreeCompiler

/-- Code that was built compiles to an assembly text. -/
theorem buildAssembly_of_buildCode {prog : Tree.Program} {p : Code.Program} (hbuild : buildCode prog = .ok p)
    (options : Asm.Options) :
    ∃ text, Asm.assemble options p = .ok text ∧ buildAssembly options prog = .ok text := by
  obtain ⟨text, htext⟩ := Asm.assemble_ok_of_wellFormed (buildCode_wellFormed hbuild) options
  exact ⟨text, htext, bind_eq_ok_iff.mpr ⟨p, hbuild, mapError_eq_ok_iff.mpr htext⟩⟩

/-- Building code fails in lowering or in the check. -/
theorem buildCode_ne_assembly (prog : Tree.Program) (e : Asm.Error) :
    buildCode prog ≠ .error (.assembly e) := by
  intro herror
  rcases bind_eq_error_iff.mp herror with hlower | ⟨code, _, hrest⟩
  · obtain ⟨_, _, hkind⟩ := mapError_eq_error_iff.mp hlower
    cases hkind
  · rcases bind_eq_error_iff.mp hrest with hcheck | ⟨_, _, hpure⟩
    · obtain ⟨_, _, hkind⟩ := mapError_eq_error_iff.mp hcheck
      cases hkind
    · cases hpure

theorem buildAssembly_ne_assembly (options : Asm.Options) (prog : Tree.Program) (e : Asm.Error) :
    buildAssembly options prog ≠ .error (.assembly e) := by
  intro herror
  rcases bind_eq_error_iff.mp herror with hcode | ⟨p, hbuild, _⟩
  · exact buildCode_ne_assembly prog e hcode
  · obtain ⟨text, _, htext⟩ := buildAssembly_of_buildCode hbuild options
    rw [htext] at herror
    cases herror

/-- Behind the check nothing fails: code that was built compiles to an assembly text, with
    comments or without, so neither a program nor a file is ever refused by code generation. -/
theorem assembly_never_refused :
    (∀ prog p, buildCode prog = .ok p → ∀ options, ∃ text,
      Asm.assemble options p = .ok text ∧ buildAssembly options prog = .ok text) ∧
    (∀ options prog e, buildAssembly options prog ≠ .error (.assembly e)) ∧
    ∀ name content e, compileFile name content ≠ .error (.build (.assembly e)) := by
  refine ⟨fun prog p hbuild options => buildAssembly_of_buildCode hbuild options,
    buildAssembly_ne_assembly, fun name content e herror => ?_⟩
  rcases bind_eq_error_iff.mp herror with hread | ⟨prog, _, hbuild⟩
  · obtain ⟨_, _, hkind⟩ := mapError_eq_error_iff.mp hread
    cases hkind
  · obtain ⟨e', he', hkind⟩ := mapError_eq_error_iff.mp hbuild
    cases hkind
    exact buildAssembly_ne_assembly {} prog e he'

/-- Code is built under all names of variables, and differs by the names of storage only. -/
theorem buildCode_rename {r : String → String} (hr : r.Injective) {prog : Tree.Program} {p : Code.Program}
    (hbuild : buildCode prog = .ok p) : ∃ p', buildCode (prog.rename r) = .ok p' ∧ p.Variant p' := by
  obtain ⟨code, hlower, hcheck⟩ := bind_eq_ok_iff.mp hbuild
  obtain ⟨u, hcheck, hp⟩ := bind_eq_ok_iff.mp hcheck
  cases hp
  obtain ⟨p', hlower', hvariant⟩ := Lower.lowerProgram_variant hr (mapError_eq_ok_iff.mp hlower)
  have hcheck' := hvariant.validate (mapError_eq_ok_iff.mp hcheck)
  refine ⟨p', bind_eq_ok_iff.mpr ⟨p', mapError_eq_ok_iff.mpr hlower', ?_⟩, hvariant⟩
  exact bind_eq_ok_iff.mpr ⟨(), mapError_eq_ok_iff.mpr hcheck', rfl⟩

/-- Names of variables do not matter: a program that compiles without comments compiles to the
    same text when its variables get other names, whatever these look like. -/
theorem buildAssembly_rename {r : String → String} (hr : r.Injective) {options : Asm.Options}
    (hcomments : options.comments = false) {prog : Tree.Program} {text : String}
    (hbuild : buildAssembly options prog = .ok text) : buildAssembly options (prog.rename r) = .ok text := by
  obtain ⟨p, hcode, htext⟩ := bind_eq_ok_iff.mp hbuild
  obtain ⟨p', hcode', hvariant⟩ := buildCode_rename hr hcode
  have htext' := Asm.assemble_variant hcomments hvariant (mapError_eq_ok_iff.mp htext)
  exact bind_eq_ok_iff.mpr ⟨p', hcode', mapError_eq_ok_iff.mpr htext'⟩

/-- A function with a variable inside a block that shadows its parameter, and one more. -/
def shadowing (param inner other : String) : Tree.Program :=
  ⟨[.func { name := "main", params := [⟨param, .number⟩], ret := .number, isPublic := true, isExternal := false }
    (.block [.block [.define inner .number (.literal (.number 2)), .define other .number (.literal (.number 3)),
      .ret (.binary "+" (.var inner) (.var other))]])]⟩

/-- The shadowing variable is stored as `x.1`, which is the name of the other one after renaming. -/
theorem buildAssembly_shadowing :
    (shadowing "x" "x" "y").rename (Equiv.swap "y" "x.1") = shadowing "x" "x" "x.1" ∧
      ∃ text, buildAssembly {} (shadowing "x" "x" "y") = .ok text ∧
        buildAssembly {} (shadowing "x" "x" "x.1") = .ok text := by
  have hrename : (shadowing "x" "x" "y").rename (Equiv.swap "y" "x.1") = shadowing "x" "x" "x.1" := by
    simp [shadowing, Tree.Program.rename, Tree.renameAll, Tree.Expr.rename, Tree.Header.rename, Tree.Param.rename,
      Equiv.swap_apply_def]
  have hsome : (buildAssembly {} (shadowing "x" "x" "y")).toOption.isSome = true := by decide +kernel
  obtain ⟨text, htext⟩ := Option.isSome_iff_exists.mp hsome
  have htext := eq_ok_of_toOption htext
  refine ⟨hrename, text, htext, ?_⟩
  rw [← hrename]
  exact buildAssembly_rename (Equiv.swap "y" "x.1").injective rfl htext

end TreeCompiler
