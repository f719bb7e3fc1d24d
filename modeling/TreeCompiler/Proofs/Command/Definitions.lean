import Mathlib.Data.List.Induction
import Mathlib.Data.List.Nodup
import Mathlib.Data.List.Perm.Basic
import TreeCompiler.Command.Outcome
import TreeCompiler.Proofs.Asm.Placement
import TreeCompiler.Proofs.Lower.Program
import TreeCompiler.Proofs.Scope
import TreeCompiler.Proofs.Tree.Rendition

/-!
The symbols that the assembly text of several files defines. Each file numbers its strings from zero and
keeps the names of its functions, so that files with strings get in each other's way.
-/

namespace TreeCompiler.Asm

open Code

/-- The symbol that a line defines, which is known in the whole text. -/
def Line.definition? : Line → Option String
  | .string index _ => some (stringText index)
  | .symbol name => some name
  | _ => none

/-- The symbols that lines define, in order. -/
def definitions (lines : List Line) : List String :=
  lines.filterMap Line.definition?

section Definitions

variable {options : Options} {site : Site} {g g' : GenState} {i : Nat} {covered : Bool} {strings strings' : StringTable}
  {ls ms : List Line}

theorem definitions_append : definitions (ls ++ ms) = definitions ls ++ definitions ms :=
  List.filterMap_append

@[simp] theorem definitions_map_insn (xs : List Insn) : definitions (xs.map .insn) = [] := by
  simp [definitions, Line.definition?]

theorem definitions_genInstr {x : Instr} (hinstr : genInstr site i x g = .ok ((ls, covered), g')) :
    definitions ls = [] := by
  rcases (genInstr_gives g (ls, covered) g' hinstr).lines with ⟨xs, hxs⟩ | ⟨name, _, hmark⟩
  · simp only at hxs
    rw [hxs, definitions_map_insn]
  · simp only at hmark
    rw [hmark]
    rfl

/-- The instructions of a function define nothing for the rest of the text. -/
theorem definitions_genCode {code : List Instr} (hgen : genCode options site i covered code g = .ok (ls, g')) :
    definitions ls = [] := by
  induction code generalizing i covered g ls with
  | nil =>
    obtain ⟨rfl, rfl⟩ := GenM.pure_eq_ok_iff.mp hgen
    rfl
  | cons x code ih =>
    unfold genCode at hgen
    split at hgen
    · exact ih hgen
    · simp only [GenM.bind_eq_ok_iff, GenM.within_eq_ok_iff, GenM.pure_eq_ok_iff] at hgen
      obtain ⟨⟨lines, covers⟩, g₁, hinstr, rest, _, hrest, rfl, rfl⟩ := hgen
      have hannounced : definitions (if options.comments then [.comment x.text] else []) = [] := by
        split <;> rfl
      simp only [definitions_append, hannounced, definitions_genInstr hinstr, ih hrest, List.append_nil]

/-- A function defines its own name. -/
theorem definitions_genFunc {f : Func} (hgen : genFunc options f strings = .ok (ls, strings')) :
    definitions ls = [f.name] := by
  obtain ⟨frame, labels, params, g₁, body, g₂, _, _, _, hbody, rfl, _⟩ := genFunc_eq_ok_iff.mp hgen
  have hglobal : definitions (if f.isPublic then [.global f.name] else []) = [] := by
    split <;> rfl
  have hinner : definitions (innerLines frame params body) = [] := by
    have hentry : ∀ ls, definitions (.mark "entry" :: ls) = definitions ls := fun _ => rfl
    have hexit : definitions (.mark "exit" :: epilogue) = [] := rfl
    simp only [innerLines, definitions_append, definitions_map_insn, hentry, hexit, definitions_genCode hbody,
      List.append_nil]
  have hsymbol : definitions (.symbol f.name :: innerLines frame params body) =
      f.name :: definitions (innerLines frame params body) := rfl
  rw [funcLines_eq, definitions_append, hglobal, hsymbol, hinner, List.nil_append]

theorem definitions_genFuncs {funcs : List Func} (hgen : genFuncs options strings funcs = .ok ls) :
    definitions ls = (funcs.filter (!·.isExternal)).map (·.name) := by
  induction funcs generalizing strings ls with
  | nil =>
    cases hgen
    rfl
  | cons f funcs ih =>
    obtain ⟨own, strings', rest, hown, hrest, rfl⟩ := genFuncs_cons_eq_ok_iff.mp hgen
    have hblank : definitions (.blank :: (own ++ rest)) = definitions own ++ definitions rest := definitions_append
    rcases hown with ⟨hexternal, _, rfl, rfl⟩ | ⟨hinternal, hown⟩
    · rw [hblank, ih hrest, List.filter_cons_of_neg (by simp [hexternal])]
      rfl
    · rw [hblank, ih hrest, definitions_genFunc hown, List.filter_cons_of_pos (by simp [hinternal])]
      rfl

theorem definitions_mapIdx (texts : List Bytes) :
    definitions (texts.mapIdx fun index text => .string index text) = (List.range texts.length).map stringText := by
  induction texts using List.reverseRecOn with
  | nil => rfl
  | append_singleton texts text ih =>
    rw [List.mapIdx_concat, definitions_append, ih, List.length_append, List.length_singleton, List.range_succ,
      List.map_append]
    rfl

theorem definitions_lines : definitions strings.lines = (List.range strings.strings.size).map stringText := by
  rw [StringTable.lines, definitions_mapIdx, Array.length_toList]

/-- A program defines its strings and its functions that have code. -/
theorem definitions_genProgram {p : Code.Program} (hgen : genProgram options p = .ok ls) :
    definitions ls = (List.range (StringTable.ofProgram p).strings.size).map stringText ++
      (p.funcs.filter (!·.isExternal)).map (·.name) := by
  obtain ⟨fs, hfs, heq⟩ := bind_eq_ok_iff.mp hgen
  cases heq
  have hopening : definitions [.segment ".data"] = [] := rfl
  have hclosing : definitions [.blank, .segment ".text"] = [] := rfl
  simp only [definitions_append, hopening, hclosing, definitions_lines, definitions_genFuncs hfs, List.nil_append,
    List.append_nil]

theorem stringText_inj {k k' : Nat} (heq : stringText k = stringText k') : k = k' :=
  numeral_inj (String.append_right_inj _ |>.mp heq)

theorem render_append : render (ls ++ ms) = render ls ++ render ms := by
  rw [render, List.map_append, String.join_append, ← render, ← render]

end Definitions

end TreeCompiler.Asm

namespace TreeCompiler.Command

open Asm (Line StringTable genProgram render definitions stringText)

/-- What is made of a file on the way to its text. -/
structure Object where
  program : Tree.Program
  code : Code.Program
  lines : List Line

namespace Object

/-- The names of the functions in the file, of those without a body too. -/
def names (o : Object) : List String :=
  (Lower.funcItems o.program.body).map (·.1.name)

/-- The names of the functions that the text defines. -/
def defined (o : Object) : List String :=
  (o.code.funcs.filter (!·.isExternal)).map (·.name)

/-- The number of strings that the text defines. -/
def strings (o : Object) : Nat :=
  (StringTable.ofProgram o.code).strings.size

/-- The symbols of the strings that the text defines. -/
def labels (o : Object) : List String :=
  (List.range o.strings).map stringText

end Object

/-- The stages that a file passes on the way to its text. -/
structure Builds (comments : Bool) (read : FileReader) (name : String) (o : Object) : Prop where
  program : readProgram name (read name) = .ok o.program
  code : buildCode o.program = .ok o.code
  lines : genProgram { comments } o.code = .ok o.lines

/-- The text that a run leaves behind, on the screen or in a file. -/
def Outcome.written (o : Outcome) : String :=
  match o.file with
  | some (_, text) => text
  | none => o.printed

section Run

variable {comments : Bool} {read : FileReader} {name text : String} {files : List String} {o : Object}
  {objects : List Object}

theorem fileText_eq_ok_iff : Action.assembly.fileText comments read name = .ok text ↔
    ∃ o, Builds comments read name o ∧ text = render o.lines := by
  simp only [Action.fileText, Action.text, bind_eq_ok_iff, mapError_eq_ok_iff, buildAssembly, Asm.assemble,
    map_eq_ok_iff]
  constructor
  · rintro ⟨program, hprogram, code, hcode, lines, hlines, rfl⟩
    exact ⟨⟨program, code, lines⟩, ⟨hprogram, hcode, hlines⟩, rfl⟩
  · rintro ⟨o, ho, rfl⟩
    exact ⟨o.program, ho.program, o.code, ho.code, o.lines, ho.lines, rfl⟩

/-- If no file fails, the text is that of the lines of all files, one file after the other. -/
theorem texts_eq_none_iff : Action.assembly.texts comments read files = (text, none) ↔
    ∃ objects, List.Forall₂ (Builds comments read) files objects ∧
      text = render (objects.flatMap (·.lines)) := by
  induction files generalizing text with
  | nil =>
    constructor
    · intro htexts
      cases htexts
      exact ⟨[], .nil, rfl⟩
    · rintro ⟨_, ⟨⟩, rfl⟩
      rfl
  | cons name files ih =>
    have hrender : ∀ o (objects : List Object), render ((o :: objects).flatMap (·.lines)) =
        render o.lines ++ render (objects.flatMap (·.lines)) := fun _ _ => by
      rw [List.flatMap_cons, Asm.render_append]
    unfold Action.texts
    constructor
    · intro htexts
      split at htexts
      · cases htexts
      · next own hown =>
        obtain ⟨o, ho, rfl⟩ := fileText_eq_ok_iff.mp hown
        obtain ⟨htext, hnone⟩ := Prod.mk.inj htexts
        obtain ⟨objects, hobjects, hothers⟩ := ih.mp (Prod.ext rfl hnone)
        refine ⟨o :: objects, .cons ho hobjects, ?_⟩
        rw [hrender, ← hothers, htext]
    · rintro ⟨_, ⟨⟩ | ⟨ho, hobjects⟩, rfl⟩
      rw [fileText_eq_ok_iff.mpr ⟨_, ho, rfl⟩]
      dsimp only
      rw [ih.mpr ⟨_, hobjects, rfl⟩, hrender]

/-- A run over files that all compile leaves the text of their lines behind. -/
theorem run_of_builds {r : Request} (hobjects : List.Forall₂ (Builds r.comments read) r.files objects) :
    (Action.assembly.run read r).failure = none ∧
      (Action.assembly.run read r).written = render (objects.flatMap (·.lines)) := by
  have htexts := texts_eq_none_iff.mpr ⟨objects, hobjects, rfl⟩
  simp only [Action.run, htexts]
  split <;> exact ⟨rfl, rfl⟩

theorem exists_objects {r : Request} (hrun : (Action.assembly.run read r).failure = none) :
    ∃ objects, List.Forall₂ (Builds r.comments read) r.files objects := by
  match htexts : Action.assembly.texts r.comments read r.files with
  | (text, some message) => simp only [Action.run, htexts, reduceCtorEq] at hrun
  | (text, none) =>
    obtain ⟨objects, hobjects, _⟩ := texts_eq_none_iff.mp htexts
    exact ⟨objects, hobjects⟩

theorem Builds.unique {o' : Object} (ho : Builds comments read name o) (ho' : Builds comments read name o') :
    o = o' := by
  obtain ⟨program, code, lines⟩ := o
  obtain ⟨program', code', lines'⟩ := o'
  cases ho.program.symm.trans ho'.program
  cases ho.code.symm.trans ho'.code
  cases ho.lines.symm.trans ho'.lines
  rfl

theorem Builds.names_eq (ho : Builds comments read name o) : o.code.funcs.map (·.name) = o.names := by
  obtain ⟨sigs, _, hlowers⟩ := Lower.lowerProgram_funcs (buildCode_ok ho.code).1
  exact Lower.names_of_lowers hlowers

/-- What the text of a file defines: its strings, then its functions. -/
theorem Builds.definitions_eq (ho : Builds comments read name o) : definitions o.lines = o.labels ++ o.defined :=
  Asm.definitions_genProgram ho.lines

/-- What the functions of all files are called, if they have code. -/
theorem defined_sublist (hobjects : List.Forall₂ (Builds comments read) files objects) :
    (objects.flatMap (·.defined)).Sublist (objects.flatMap (·.names)) := by
  induction hobjects with
  | nil => exact .refl _
  | cons ho _ ih =>
    rw [List.flatMap_cons, List.flatMap_cons, ← ho.names_eq]
    exact (List.filter_sublist.map _).append ih

theorem definitions_objects (hobjects : List.Forall₂ (Builds comments read) files objects) :
    definitions (objects.flatMap (·.lines)) = objects.flatMap fun o => o.labels ++ o.defined := by
  induction hobjects with
  | nil => rfl
  | cons ho _ ih =>
    rw [List.flatMap_cons, List.flatMap_cons, Asm.definitions_append, ih, ho.definitions_eq]

theorem nodup_labels (o : Object) : o.labels.Nodup :=
  List.nodup_range.map fun _ _ heq => Asm.stringText_inj heq

/-- The first string has the same symbol in each text. -/
theorem disjoint_labels_iff {o o' : Object} : o.labels.Disjoint o'.labels ↔ o.strings = 0 ∨ o'.strings = 0 := by
  constructor
  · intro hdisjoint
    refine Decidable.by_contra fun hboth => ?_
    have hfirst : ∀ o : Object, o.strings ≠ 0 → stringText 0 ∈ o.labels := fun o ho =>
      List.mem_map_of_mem (List.mem_range.mpr (Nat.pos_of_ne_zero ho))
    rw [not_or] at hboth
    exact hdisjoint (hfirst o hboth.1) (hfirst o' hboth.2)
  · rintro (hzero | hzero) label hlabel hlabel'
    · simp [Object.labels, hzero] at hlabel
    · simp [Object.labels, hzero] at hlabel'

/-- Where all functions have different names, a symbol is defined twice exactly if two files have strings
    or a function is named like a string. -/
theorem definitions_nodup_iff (hobjects : List.Forall₂ (Builds comments read) files objects)
    (hnames : (objects.flatMap (·.names)).Nodup) : (definitions (objects.flatMap (·.lines))).Nodup ↔
      objects.Pairwise (fun o o' => o.strings = 0 ∨ o'.strings = 0) ∧
        ∀ o ∈ objects, ∀ o' ∈ objects, ∀ index < o.strings, stringText index ∉ o'.defined := by
  have hdefined : (objects.flatMap (·.defined)).Nodup := hnames.sublist (defined_sublist hobjects)
  have hperm := List.flatMap_append_perm objects Object.labels Object.defined
  rw [definitions_objects hobjects, ← hperm.nodup_iff, List.nodup_append', List.nodup_flatMap]
  simp only [nodup_labels, implies_true, true_and, hdefined]
  refine and_congr ?_ ?_
  · exact ⟨fun hpairs => hpairs.imp disjoint_labels_iff.mp, fun hpairs => hpairs.imp disjoint_labels_iff.mpr⟩
  · simp only [List.disjoint_left, List.mem_flatMap, Object.labels, List.mem_map, List.mem_range]
    constructor
    · rintro hdisjoint o ho o' ho' index hindex hmem
      exact hdisjoint ⟨o, ho, index, hindex, rfl⟩ ⟨o', ho', hmem⟩
    · rintro hapart _ ⟨o, ho, index, hindex, rfl⟩ ⟨o', ho', hmem⟩
      exact hapart o ho o' ho' index hindex hmem

end Run

section Constants

variable {comments : Bool} {read : FileReader} {name f body : String} {l : Tree.Literal} {strings : Nat}

/-- A program of one function, which returns a literal. -/
def constant (f : String) (l : Tree.Literal) : Tree.Program :=
  ⟨[.func ⟨f, [], .str, false, false⟩ (.literal l)]⟩

/-- The same as a document. -/
def constantText (f body : String) : String :=
  "- \x7bfun: \x7bname: " ++ f ++ ", params: [], ret: str, pub: false, extern: false, body: " ++ body ++ "\x7d\x7d"

/-- What a program defines, if it compiles: the number of its strings and its functions. -/
def content? (prog : Tree.Program) : Option (Nat × List String) :=
  (buildCode prog).toOption.map fun code =>
    ((StringTable.ofProgram code).strings.size, (code.funcs.filter (!·.isExternal)).map (·.name))

theorem exists_builds (hread : read name = .ok (constantText f body)) (hf : f ≠ "") (hl : l.WellFormed)
    (htext : (Yaml.firstDocument (constantText f body)).toOption.join.any
      (Tree.sameNode (.sequence 1 (Tree.toNodes 1 (constant f l).body))) = true)
    (hcontent : content? (constant f l) = some (strings, [f])) :
    ∃ o, Builds comments read name o ∧ o.names = [f] ∧ o.strings = strings ∧ o.defined = [f] := by
  have hwell : Tree.WellFormedAll (constant f l).body := by
    simp [constant, Tree.WellFormedAll, Tree.Expr.WellFormed, Tree.Header.WellFormed, Tree.Ty.all, hf, hl]
  have hprogram : readProgram name (read name) = .ok (constant f l) := by
    rw [hread]
    exact mapError_eq_ok_iff.mpr (Tree.Program.ofText_eq 1 hwell htext)
  obtain ⟨code, hcode, heq⟩ := Option.map_eq_some_iff.mp hcontent
  obtain ⟨hstrings, hdefined⟩ := Prod.mk.inj heq
  have hbuild := eq_ok_of_toOption hcode
  obtain ⟨text, hassemble⟩ := Asm.assemble_ok_of_wellFormed (buildCode_wellFormed hbuild) { comments }
  obtain ⟨lines, hlines, _⟩ := map_eq_ok_iff.mp hassemble
  exact ⟨⟨constant f l, code, lines⟩, ⟨hprogram, hbuild, hlines⟩, rfl, hstrings, hdefined⟩

/-- Three files: two with functions that return different strings, and one without strings. -/
def constants : FileReader := fun name =>
  match [("f.yaml", constantText "f" "hi"), ("g.yaml", constantText "g" "ho"),
    ("h.yaml", constantText "h" "1")].lookup name with
  | some text => .ok text
  | none => .error .notFound

theorem builds_f : ∃ o, Builds comments constants "f.yaml" o ∧ o.names = ["f"] ∧ o.strings = 1 ∧
    o.defined = ["f"] := by
  have hl : (Tree.Literal.str (Bytes.ofString "hi")).WellFormed := by
    simp [Tree.Literal.WellFormed, Tree.toString?_ofString]
  exact exists_builds rfl (by decide) hl (by decide +kernel) (by decide +kernel)

theorem builds_g : ∃ o, Builds comments constants "g.yaml" o ∧ o.names = ["g"] ∧ o.strings = 1 ∧
    o.defined = ["g"] := by
  have hl : (Tree.Literal.str (Bytes.ofString "ho")).WellFormed := by
    simp [Tree.Literal.WellFormed, Tree.toString?_ofString]
  exact exists_builds rfl (by decide) hl (by decide +kernel) (by decide +kernel)

theorem builds_h : ∃ o, Builds comments constants "h.yaml" o ∧ o.names = ["h"] ∧ o.strings = 0 ∧
    o.defined = ["h"] := by
  have hl : (Tree.Literal.number 1).WellFormed := trivial
  exact exists_builds rfl (by decide) hl (by decide +kernel) (by decide +kernel)

end Constants

/-- The text that is written for files that all compile, and whose functions all have different names,
    defines no symbol twice exactly if at most one file has strings and no function with code is named like
    one of these. -/
theorem assembly_defines_once_iff {read : FileReader} {r : Request}
    (hrun : (Action.assembly.run read r).failure = none) :
    ∃ objects, List.Forall₂ (Builds r.comments read) r.files objects ∧
      (Action.assembly.run read r).written = render (objects.flatMap (·.lines)) ∧
        ((objects.flatMap (·.names)).Nodup → ((definitions (objects.flatMap (·.lines))).Nodup ↔
          objects.Pairwise (fun o o' => o.strings = 0 ∨ o'.strings = 0) ∧
            ∀ o ∈ objects, ∀ o' ∈ objects, ∀ index < o.strings, stringText index ∉ o'.defined)) := by
  obtain ⟨objects, hobjects⟩ := exists_objects hrun
  exact ⟨objects, hobjects, (run_of_builds hobjects).2, definitions_nodup_iff hobjects⟩

/-- One file with a string and one without define each symbol once. -/
theorem constants_defined_once :
    let r : Request := { files := ["f.yaml", "h.yaml"] }
    (Action.assembly.run constants r).failure = none ∧
      ∃ objects, List.Forall₂ (Builds false constants) r.files objects ∧
        (Action.assembly.run constants r).written = render (objects.flatMap (·.lines)) ∧
          (definitions (objects.flatMap (·.lines))).Nodup := by
  intro r
  obtain ⟨f, hf, hfnames, hfstrings, hfdefined⟩ := builds_f
  obtain ⟨h, hh, hhnames, hhstrings, hhdefined⟩ := builds_h
  have hrun : (Action.assembly.run constants r).failure = none :=
    (run_of_builds (r := r) (.cons hf (.cons hh .nil))).1
  obtain ⟨objects, hobjects, hwritten, hiff⟩ := assembly_defines_once_iff hrun
  have heq : objects = [f, h] := by
    obtain _ | ⟨hfirst, _ | ⟨hsecond, ⟨⟩⟩⟩ := id hobjects
    rw [hfirst.unique hf, hsecond.unique hh]
  refine ⟨hrun, objects, hobjects, hwritten, ?_⟩
  subst heq
  refine (hiff (by simp [hfnames, hhnames])).mpr ⟨by simp [hhstrings], ?_⟩
  simp only [List.forall_mem_cons, hfdefined, hhdefined, hfstrings, hhstrings]
  decide

/-- Two files with a string each define the symbol of the first string twice. -/
theorem constants_defined_twice :
    let r : Request := { files := ["f.yaml", "g.yaml"] }
    (Action.assembly.run constants r).failure = none ∧
      ∃ objects, List.Forall₂ (Builds false constants) r.files objects ∧
        (Action.assembly.run constants r).written = render (objects.flatMap (·.lines)) ∧
          (objects.flatMap (·.names)).Nodup ∧
            definitions (objects.flatMap (·.lines)) = ["str_0", "f", "str_0", "g"] ∧
              ¬ (definitions (objects.flatMap (·.lines))).Nodup := by
  intro r
  obtain ⟨f, hf, hfnames, hfstrings, hfdefined⟩ := builds_f
  obtain ⟨g, hg, hgnames, hgstrings, hgdefined⟩ := builds_g
  have hobjects : List.Forall₂ (Builds r.comments constants) r.files [f, g] := .cons hf (.cons hg .nil)
  obtain ⟨hrun, hwritten⟩ := run_of_builds hobjects
  have hdefinitions : definitions ([f, g].flatMap (·.lines)) = ["str_0", "f", "str_0", "g"] := by
    rw [definitions_objects hobjects]
    simp only [List.flatMap_cons, List.flatMap_nil, Object.labels, hfstrings, hgstrings, hfdefined, hgdefined]
    decide
  refine ⟨hrun, [f, g], hobjects, hwritten, by simp [hfnames, hgnames], hdefinitions, ?_⟩
  rw [hdefinitions]
  decide

end TreeCompiler.Command
