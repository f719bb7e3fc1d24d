import TreeCompiler.Proofs.Asm.Execution
import TreeCompiler.Proofs.Asm.Success

namespace TreeCompiler.Asm

open Code

variable {site : Site} {options : Options} {g g' : GenState} {x : Instr} {i : Nat} {code : List Line}
  {covered : Bool}

/-- What is fixed about a function that compiles: its instructions get what they work on, its
    operands can be handled, and it has as many parameters as calls of it give arguments. -/
structure Site.Legal (site : Site) (arity : String → Option Nat) (strings : StringTable) : Prop where
  meets : ∀ x ∈ site.func.code, x.Meets
  complete : site.Complete strings
  arity : ∀ n, arity site.func.name = some n → n = site.func.params.length

/-- The lines of a function's instructions, cut before the instruction at an index. -/
structure Cut (options : Options) (site : Site) (arity : String → Option Nat) (strings : StringTable)
    (body : List Line) (i : Nat) (g : GenState) (before behind : List Line) : Prop where
  lines : body = before ++ behind
  gen : ∃ last, genCode options site i false (site.func.code.drop i) g = .ok (behind, last)
  ready : Ready site arity (site.func.code.drop i) g
  strings : g.strings = strings
  marks : ∀ name, Line.mark name ∈ before → name ∈ Code.labels (site.func.code.take i)

/-- The line that announces an instruction, if lines are to be announced. -/
def announcement (options : Options) (x : Instr) : List Line :=
  if options.comments then [.comment x.text] else []

namespace Cut

variable {arity : String → Option Nat} {strings : StringTable} {body before behind : List Line}

/-- The marks in the lines of an instruction are of the labels it places. -/
theorem marks_of_compiled (hcompiled : Compiled site i x (code, covered)) {name : String}
    (hname : Line.mark name ∈ announcement options x ++ code) : name ∈ x.label?.toList := by
  rcases List.mem_append.mp hname with hname | hname
  · simp only [announcement] at hname
    split at hname <;> simp at hname
  · rcases hcompiled.lines with ⟨xs, hxs⟩ | ⟨name', hname', hcode⟩
    · simp only at hxs
      simp [hxs] at hname
    · simp only at hcode
      rw [hcode, List.mem_singleton] at hname
      cases hname
      simp [hname']

/-- What a call covers is a return. -/
theorem ret_of_compiled (hcompiled : Compiled site i x (code, true)) :
    ∃ y, site.func.code[i + 1]? = some y ∧ y.op = .ret := by
  have hnext := (hcompiled.covered.mp rfl).2.2
  unfold returnsNext at hnext
  split at hnext
  · next y hy => exact ⟨y, hy, (of_decide_eq_true hnext).1⟩
  · cases hnext

/-- Cutting behind the next instruction and what it covers. -/
theorem step (hcut : Cut options site arity strings body i g before behind)
    (hlegal : site.Legal arity strings) (hx : site.func.code[i]? = some x) :
    ∃ code covered g' rest, genInstr site i x g = .ok ((code, covered), g') ∧
      behind = announcement options x ++ code ++ rest ∧
        (covered = true → ∃ y, site.func.code[i + 1]? = some y ∧ y.op = .ret) ∧
          Cut options site arity strings body (if covered then i + 2 else i + 1) g'
            (before ++ (announcement options x ++ code)) rest := by
  have hmem : x ∈ site.func.code := List.mem_of_getElem? hx
  have hready := hcut.ready
  obtain ⟨last, hgen⟩ := hcut.gen
  rw [Code.drop_of_getElem? hx] at hgen hready
  simp only [genCode, Bool.false_eq_true, if_false, GenM.bind_eq_ok_iff, GenM.within_eq_ok_iff,
    GenM.pure_eq_ok_iff] at hgen
  obtain ⟨⟨code, covered⟩, g', hinstr, rest, _, hrest, rfl, rfl⟩ := hgen
  obtain ⟨r, g'', hinstr', hstrings, hready'⟩ := genInstr_returns hmem (hlegal.meets x hmem)
    (hcut.strings ▸ hlegal.complete) hready rfl hlegal.arity
  cases hinstr.symm.trans hinstr'
  have hcompiled := genInstr_gives g (code, covered) g' hinstr
  have hlines : body = before ++ (announcement options x ++ code) ++ rest := by
    rw [hcut.lines]
    simp only [announcement, List.append_assoc]
  have hmarks : ∀ name, Line.mark name ∈ before ++ (announcement options x ++ code) →
      name ∈ Code.labels (site.func.code.take (i + 1)) := by
    intro name hname
    rw [Code.labels_take_succ hx]
    rcases List.mem_append.mp hname with hname | hname
    · exact List.mem_append_left _ (hcut.marks name hname)
    · exact List.mem_append_right _ (marks_of_compiled hcompiled hname)
  cases covered with
  | false =>
    exact ⟨code, false, g', rest, hinstr, rfl, (fun hcovered => by cases hcovered), hlines, ⟨_, hrest⟩,
      hready', hstrings.trans hcut.strings, hmarks⟩
  | true =>
    obtain ⟨y, hy, hret⟩ := ret_of_compiled hcompiled
    rw [Code.drop_of_getElem? hy] at hrest hready'
    refine ⟨code, true, g', rest, hinstr, rfl, fun _ => ⟨y, hy, hret⟩, hlines, ⟨_, hrest⟩,
      hready', hstrings.trans hcut.strings, fun name hname => ?_⟩
    rw [if_pos rfl, Code.labels_take_succ hy]
    exact List.mem_append_left _ (hmarks name hname)

/-- Every instruction is preceded by a cut, unless the one before it covers it. -/
theorem exists_at (hcut : Cut options site arity strings body 0 g [] body)
    (hlegal : site.Legal arity strings) (hi : i ≤ site.func.code.length) :
    (∃ g before behind, Cut options site arity strings body i g before behind) ∨
      ∃ y, site.func.code[i]? = some y ∧ y.op = .ret ∧
        ∃ g before behind, Cut options site arity strings body (i + 1) g before behind := by
  induction i with
  | zero => exact .inl ⟨g, [], body, hcut⟩
  | succ i ih =>
    rcases ih (by omega) with ⟨g, before, behind, hcut⟩ | ⟨_, _, _, hnext⟩
    · have hx := List.getElem?_eq_getElem (show i < site.func.code.length by omega)
      obtain ⟨code, covered, g', rest, _, _, hcovered, hcut⟩ := hcut.step hlegal hx
      cases covered with
      | false => exact .inl ⟨g', _, rest, hcut⟩
      | true =>
        obtain ⟨y, hy, hret⟩ := hcovered rfl
        exact .inr ⟨y, hy, hret, g', _, rest, hcut⟩
    · exact .inl hnext

end Cut

/-- A line is found where it stands first. -/
theorem idxOf?_append_cons {before behind : List Line} {l : Line} (hl : l ∉ before) :
    (before ++ l :: behind).idxOf? l = some before.length := by
  induction before with
  | nil => simp [List.idxOf?_cons]
  | cons b before ih =>
    simp only [List.mem_cons, not_or] at hl
    have hb : (b == l) = false := beq_eq_false_iff_ne.mpr (Ne.symm hl.1)
    simp [List.idxOf?_cons, hb, ih hl.2]

/-- Behind a symbol and lines without symbols, the function is the one of that symbol. -/
theorem functionStart_eq (before : List Line) (symbol : String) {lines : List Line} (rest : List Line)
    (hlines : ∀ l ∈ lines, l.isSymbol = false) :
    functionStart (before ++ .symbol symbol :: (lines ++ rest)) (before.length + 1 + lines.length) =
      before.length + 1 := by
  have htake : (before ++ .symbol symbol :: (lines ++ rest)).take (before.length + 1 + lines.length) =
      before ++ .symbol symbol :: lines := by
    rw [show before ++ .symbol symbol :: (lines ++ rest) =
      (before ++ .symbol symbol :: lines) ++ rest by simp]
    rw [List.take_left' (by simp; omega)]
  have hreverse : (before ++ .symbol symbol :: lines).reverse =
      lines.reverse ++ .symbol symbol :: before.reverse := by simp
  rw [functionStart, htake, hreverse, List.takeWhile_append_of_pos (by simpa using hlines)]
  simp [Line.isSymbol]

variable {h : Host} {name : String} {ls : List Line} {p : Code.Program} {funcs : List Func} {f : Func}

/-- Inside the lines of a function, a mark is found where it stands first in the function. -/
theorem Host.mark?_eq {start pc : Nat} {symbol : String} {before behind : List Line}
    (hcode : h.HasCode start (.symbol symbol :: (before ++ .mark name :: behind)))
    (hsymbols : ∀ l ∈ before ++ .mark name :: behind, l.isSymbol = false)
    (hfirst : .mark name ∉ before) (hlo : start < pc)
    (hhi : pc ≤ start + 1 + (before ++ .mark name :: behind).length) :
    h.mark? pc name = some (start + 1 + before.length) := by
  obtain ⟨rest, hrest⟩ := hcode
  have hstart : start < h.lines.length := by
    refine Decidable.by_contra fun hge => ?_
    rw [List.drop_eq_nil_of_le (by omega)] at hrest
    cases hrest
  have hlength : (h.lines.take start).length = start := by
    rw [List.length_take]
    omega
  -- The function up to the position, then the rest of it, then what follows.
  obtain ⟨k, rfl⟩ : ∃ k, pc = start + 1 + k := ⟨pc - start - 1, by omega⟩
  have hlines : h.lines = h.lines.take start ++ .symbol symbol ::
      ((before ++ .mark name :: behind).take k ++ ((before ++ .mark name :: behind).drop k ++ rest)) := by
    rw [← List.append_assoc, List.take_append_drop, ← List.cons_append, hrest, List.take_append_drop]
  have hk : ((before ++ .mark name :: behind).take k).length = k := by
    rw [List.length_take]
    omega
  have hfunction : functionStart h.lines (start + 1 + k) = start + 1 := by
    have heq := functionStart_eq (h.lines.take start) symbol
      ((before ++ .mark name :: behind).drop k ++ rest)
      fun l (hl : l ∈ (before ++ .mark name :: behind).take k) => hsymbols l (List.mem_of_mem_take hl)
    rw [← hlines, hlength, hk] at heq
    exact heq
  have hdrop : h.lines.drop (start + 1) = before ++ (.mark name :: (behind ++ rest)) := by
    rw [← List.drop_drop, ← hrest]
    simp
  have hwhile : (h.lines.drop (start + 1)).takeWhile (fun l => !l.isSymbol) =
      before ++ .mark name :: (behind ++ rest).takeWhile (fun l => !l.isSymbol) := by
    rw [hdrop, List.takeWhile_append_of_pos fun l hl => by simpa using hsymbols l (by simp [hl])]
    simp [Line.isSymbol]
  simp only [mark?, hfunction, hwhile, idxOf?_append_cons hfirst, Option.map_some]

/-- The instructions that open the frame of a function. -/
def prologue (frame : Frame) : List Insn :=
  [.push .rbp, .mov .rbp .rsp] ++ if frame.size = 0 then [] else [.grow frame.size]

/-- The instructions behind the entry of a function that give up the arrays of an earlier round. -/
def rewind (frame : Frame) : List Insn :=
  if frame.hasArrays then [.leaFrame .rsp frame.size] else []

/-- The lines that close the frame of a function. -/
def epilogue : List Line :=
  [.insn (.mov .rsp .rbp), .insn (.pop .rbp), .insn .ret]

/-- The lines of a function between its symbol and the end of its text. -/
def innerLines (frame : Frame) (params : List Insn) (body : List Line) : List Line :=
  (prologue frame).map .insn ++ .mark "entry" ::
    ((rewind frame ++ params).map .insn ++ (body ++ .mark "exit" :: epilogue))

theorem funcLines_eq (f : Func) (frame : Frame) (params : List Insn) (body : List Line) :
    funcLines f frame params body =
      (if f.isPublic then [.global f.name] else []) ++ .symbol f.name :: innerLines frame params body := by
  have hreserve : (if frame.size = 0 then [] else [Line.insn (.grow frame.size)]) =
      (if frame.size = 0 then [] else [Insn.grow frame.size]).map Line.insn := by
    split <;> rfl
  have hrewind : (if frame.hasArrays then [Line.insn (.leaFrame .rsp frame.size)] else []) =
      (rewind frame).map Line.insn := by
    unfold rewind
    split <;> rfl
  simp only [funcLines, innerLines, prologue, epilogue, hreserve, hrewind, List.map_append, List.map_cons,
    List.append_assoc, List.cons_append, List.nil_append]

/-- A function of a program stands in a text: its symbol at a position, behind it its lines, as
    they are generated from its parameters and its code. -/
structure Placed (h : Host) (options : Options) (p : Code.Program) (site : Site) (start : Nat)
    (params : List Insn) (opened : GenState) (body : List Line) : Prop where
  mem : site.func ∈ p.funcs
  internal : site.func.isExternal = false
  frame : Frame.ofFunc site.func = .ok site.frame
  labels : collectLabels 0 [] site.func.code = .ok site.labels
  bind : bindParams site 0 (site.func.params.map (·.operand)) Reg.args
    { strings := StringTable.ofProgram p, reuse := options.reuse } = .ok (params, opened)
  gen : ∃ last, genCode options site 0 false site.func.code opened = .ok (body, last)
  symbol : h.symbol? site.func.name = some start
  code : h.HasCode start (.symbol site.func.name :: innerLines site.frame params body)

theorem isSymbol_genCode {code : List Instr} :
    genCode options site i covered code g = .ok (ls, g') → ∀ l ∈ ls, l.isSymbol = false := by
  induction code generalizing i covered g ls with
  | nil =>
    intro hgen
    obtain ⟨rfl, rfl⟩ := GenM.pure_eq_ok_iff.mp hgen
    simp
  | cons x code ih =>
    intro hgen
    unfold genCode at hgen
    split at hgen
    · exact ih hgen
    · simp only [GenM.bind_eq_ok_iff, GenM.within_eq_ok_iff, GenM.pure_eq_ok_iff] at hgen
      obtain ⟨⟨lines, covered⟩, g₁, hinstr, rest, _, hrest, rfl, rfl⟩ := hgen
      have hcompiled := genInstr_gives g (lines, covered) g₁ hinstr
      intro l hl
      rw [List.append_assoc] at hl
      rcases List.mem_append.mp hl with hl | hl
      · split at hl
        · rw [List.mem_singleton] at hl
          subst hl
          rfl
        · cases hl
      · rcases List.mem_append.mp hl with hl | hl
        · rcases hcompiled.lines with ⟨xs, hxs⟩ | ⟨name, _, hmark⟩
          · simp only at hxs hl
            rw [hxs] at hl
            obtain ⟨y, _, rfl⟩ := List.mem_map.mp hl
            rfl
          · simp only at hmark hl
            rw [hmark, List.mem_singleton] at hl
            subst hl
            rfl
        · exact ih hrest l hl

theorem isSymbol_innerLines (frame : Frame) (params : List Insn) {body : List Line}
    (hbody : ∀ l ∈ body, l.isSymbol = false) : ∀ l ∈ innerLines frame params body, l.isSymbol = false := by
  have hinsns : ∀ xs : List Insn, ∀ l ∈ xs.map Line.insn, l.isSymbol = false := by
    simp [Line.isSymbol]
  intro l hl
  simp only [innerLines, epilogue, List.mem_append, List.mem_cons, List.not_mem_nil, or_false] at hl
  rcases hl with hl | rfl | hl | hl | rfl | rfl | rfl | rfl
  · exact hinsns _ l hl
  · rfl
  · exact hinsns _ l hl
  · exact hbody l hl
  all_goals rfl

/-- The lines of functions are those of the first one, then those of the others. -/
theorem genFuncs_cons (hp : p.WellFormed) {g : Func}
    (hg : g ∈ p.funcs) (hgen : genFuncs options (StringTable.ofProgram p) (g :: funcs) = .ok ls) :
    ∃ own rest, ls = .blank :: (own ++ rest) ∧
      genFuncs options (StringTable.ofProgram p) funcs = .ok rest ∧
        (g.isExternal = true ∧ own = [.external g.name] ∨
          g.isExternal = false ∧
            genFunc options g (StringTable.ofProgram p) = .ok (own, StringTable.ofProgram p)) := by
  obtain ⟨own, strings', rest, hown, hrest, rfl⟩ := genFuncs_cons_eq_ok_iff.mp hgen
  rcases hown with ⟨hexternal, _, rfl, rfl⟩ | ⟨hinternal, hown⟩
  · exact ⟨_, rest, rfl, hrest, .inl ⟨hexternal, rfl⟩⟩
  · obtain ⟨own', hown'⟩ := genFunc_ok_of_wellFormed hp hg hinternal options
    cases hown.symm.trans hown'
    exact ⟨own, rest, rfl, hrest, .inr ⟨hinternal, hown⟩⟩

/-- The lines of a function hold its own symbol only. -/
theorem symbol_not_mem_genFunc {strings strings' : StringTable}
    (hgen : genFunc options f strings = .ok (ls, strings')) (hname : name ≠ f.name) :
    .symbol name ∉ ls := by
  obtain ⟨frame, labels, params, g₁, body, g₂, _, _, _, hbody, rfl, _⟩ := genFunc_eq_ok_iff.mp hgen
  have hinner := isSymbol_innerLines frame params (isSymbol_genCode hbody)
  rw [funcLines_eq]
  intro hmem
  rcases List.mem_append.mp hmem with hmem | hmem
  · split at hmem <;> simp at hmem
  · rcases List.mem_cons.mp hmem with heq | hmem
    · cases heq
      exact hname rfl
    · exact absurd (hinner _ hmem) (by simp [Line.isSymbol])

/-- The text of functions holds the lines of each of them, and no symbol of its name before. -/
theorem genFuncs_split (hp : p.WellFormed)
    (hfuncs : ∀ f ∈ funcs, f ∈ p.funcs) (hnames : (funcs.map (·.name)).Nodup)
    (hgen : genFuncs options (StringTable.ofProgram p) funcs = .ok ls) (hf : f ∈ funcs)
    (hinternal : f.isExternal = false) :
    ∃ own before rest, genFunc options f (StringTable.ofProgram p) = .ok (own, StringTable.ofProgram p) ∧
      ls = before ++ (own ++ rest) ∧ .symbol f.name ∉ before := by
  induction funcs generalizing ls with
  | nil => cases hf
  | cons g funcs ih =>
    rw [List.map_cons, List.nodup_cons] at hnames
    obtain ⟨own, rest, rfl, hrest, hown⟩ := genFuncs_cons hp (hfuncs g (by simp)) hgen
    by_cases hfg : f = g
    · subst hfg
      rcases hown with ⟨hexternal, _⟩ | ⟨_, hown⟩
      · rw [hinternal] at hexternal
        cases hexternal
      · exact ⟨own, [.blank], rest, hown, rfl, by simp⟩
    · have hf : f ∈ funcs := (List.mem_cons.mp hf).resolve_left hfg
      have hne : f.name ≠ g.name := fun heq => hnames.1 (List.mem_map.mpr ⟨f, hf, heq⟩)
      obtain ⟨own', before, rest', hown', rfl, hbefore⟩ :=
        ih (fun f' hf' => hfuncs f' (by simp [hf'])) hnames.2 hrest hf
      refine ⟨own', .blank :: (own ++ before), rest', hown', by simp, ?_⟩
      simp only [List.mem_cons, List.mem_append, not_or]
      refine ⟨by simp, ?_, hbefore⟩
      rcases hown with ⟨_, rfl⟩ | ⟨_, hown⟩
      · simp
      · exact symbol_not_mem_genFunc hown hne

/-- The text of functions holds symbols of functions that have code only. -/
theorem internal_of_symbol (hp : p.WellFormed)
    (hfuncs : ∀ f ∈ funcs, f ∈ p.funcs)
    (hgen : genFuncs options (StringTable.ofProgram p) funcs = .ok ls)
    (hname : .symbol name ∈ ls) : ∃ f ∈ funcs, f.isExternal = false ∧ f.name = name := by
  induction funcs generalizing ls with
  | nil =>
    cases hgen
    cases hname
  | cons g funcs ih =>
    obtain ⟨own, rest, rfl, hrest, hown⟩ := genFuncs_cons hp (hfuncs g (by simp)) hgen
    simp only [List.mem_cons, reduceCtorEq, List.mem_append, false_or] at hname
    rcases hname with hname | hname
    · rcases hown with ⟨_, rfl⟩ | ⟨hinternal, hown⟩
      · simp at hname
      · refine ⟨g, by simp, hinternal, ?_⟩
        exact Decidable.by_contra fun hne => symbol_not_mem_genFunc hown (Ne.symm hne) hname
    · obtain ⟨f, hf, hinternal⟩ := ih (fun f hf => hfuncs f (by simp [hf])) hrest hname
      exact ⟨f, by simp [hf], hinternal⟩

/-- Functions that are defined elsewhere have no symbol in the text. -/
theorem symbol?_of_external (hp : p.WellFormed)
    (hgen : genProgram options p = .ok h.lines) (hf : f ∈ p.funcs)
    (hexternal : f.isExternal = true) : h.symbol? f.name = none := by
  obtain ⟨ls, hls, hlines⟩ := bind_eq_ok_iff.mp hgen
  have hlines := (Except.ok.inj hlines).symm
  have hstrings : Line.symbol f.name ∉ (StringTable.ofProgram p).lines := by
    simp [StringTable.lines, List.mem_mapIdx]
  rw [Host.symbol?, List.idxOf?_eq_none_iff]
  intro hmem
  rw [hlines] at hmem
  simp only [List.mem_append, List.mem_cons, List.not_mem_nil, reduceCtorEq, or_false, hstrings,
    false_or] at hmem
  obtain ⟨g, hg, hinternal, hname⟩ := internal_of_symbol hp (fun _ hf => hf) hls hmem
  have hsame : g = f := by
    have hfound := Code.Program.func?_of_mem hp.names hg
    rw [hname, Code.Program.func?_of_mem hp.names hf] at hfound
    exact (Option.some.inj hfound).symm
  rw [hsame, hexternal] at hinternal
  cases hinternal

/-- In the text of a well-formed program, each function that has code is placed. -/
theorem exists_placed (hp : p.WellFormed)
    (hgen : genProgram options p = .ok h.lines) (hf : f ∈ p.funcs)
    (hinternal : f.isExternal = false) :
    ∃ site start params opened body, site.func = f ∧ Placed h options p site start params opened body := by
  obtain ⟨ls, hls, hlines⟩ := bind_eq_ok_iff.mp hgen
  have hlines := (Except.ok.inj hlines).symm
  obtain ⟨own, before, rest, hown, rfl, hbefore⟩ :=
    genFuncs_split hp (fun _ hg => hg) hp.names hls hf hinternal
  obtain ⟨frame, labels, params, opened, body, last, hframe, hlabels, hparams, hbody, rfl, _⟩ :=
    genFunc_eq_ok_iff.mp hown
  -- Everything before the symbol: the data, the functions before and the line that announces it.
  obtain ⟨opening, hopening⟩ : ∃ opening, opening = [.segment ".data"] ++ (StringTable.ofProgram p).lines ++
    [.blank, .segment ".text"] ++ before ++ (if f.isPublic then [Line.global f.name] else []) := ⟨_, rfl⟩
  have hsplit : h.lines = opening ++ .symbol f.name :: (innerLines frame params body ++ rest) := by
    rw [hlines, hopening, funcLines_eq]
    simp
  have hfirst : .symbol f.name ∉ opening := by
    have hstrings : Line.symbol f.name ∉ (StringTable.ofProgram p).lines := by
      simp [StringTable.lines, List.mem_mapIdx]
    have hglobal : Line.symbol f.name ∉ (if f.isPublic then [Line.global f.name] else []) := by
      split <;> simp
    simp only [hopening, List.mem_append, List.mem_cons, List.not_mem_nil, reduceCtorEq, or_false,
      hstrings, hbefore, hglobal, not_false_iff]
  refine ⟨⟨f, frame, labels⟩, opening.length, params, opened, body, rfl, hf, hinternal, hframe, hlabels,
    hparams, ⟨last, hbody⟩, ?_, ?_⟩
  · rw [Host.symbol?, hsplit]
    exact idxOf?_append_cons hfirst
  · refine ⟨rest, ?_⟩
    rw [hsplit, List.drop_left]
    simp

namespace Placed

variable {h : Host} {p : Code.Program} {start pos : Nat} {params : List Insn} {opened : GenState}
  {body : List Line}

/-- Where the entry of a placed function is marked. -/
def entryLine (start : Nat) (frame : Frame) : Nat :=
  start + 1 + (prologue frame).length

/-- Where the instructions of a placed function start. -/
def bodyLine (start : Nat) (frame : Frame) (params : List Insn) : Nat :=
  entryLine start frame + 1 + (rewind frame ++ params).length

/-- A line of the instructions lies inside the function. -/
theorem range (start : Nat) (frame : Frame) (params : List Insn) (hpos : pos ≤ body.length) :
    start < bodyLine start frame params + pos ∧
      bodyLine start frame params + pos ≤ start + 1 + (innerLines frame params body).length := by
  simp only [bodyLine, entryLine, innerLines, List.length_append, List.length_cons, List.length_map]
  omega

variable (hp : p.WellFormed) (hplaced : Placed h options p site start params opened body)
include hplaced

theorem hasCode_entry :
    h.HasCode (entryLine start site.frame)
      (.mark "entry" :: ((rewind site.frame ++ params).map .insn ++ (body ++ .mark "exit" :: epilogue))) := by
  have hcode := hplaced.code.tail
  rw [innerLines] at hcode
  simpa [entryLine] using hcode.right

variable {before behind : List Line} {name : String}

/-- Behind a cut stand the rest of the instructions and the end of the function. -/
theorem hasCode_behind (hbody : body = before ++ behind) :
    h.HasCode (bodyLine start site.frame params + before.length) (behind ++ .mark "exit" :: epilogue) := by
  have hcode := hplaced.hasCode_entry.tail.right
  rw [hbody, List.append_assoc] at hcode
  simpa [bodyLine] using hcode.right

/-- A mark in front of which there is none of its name is found from everywhere inside the
    function. -/
theorem mark?_eq
    (hlines : innerLines site.frame params body = before ++ .mark name :: behind) (hfirst : .mark name ∉ before)
    {pc : Nat} (hlo : start < pc) (hhi : pc ≤ start + 1 + (innerLines site.frame params body).length) :
    h.mark? pc name = some (start + 1 + before.length) := by
  have hcode := hplaced.code
  obtain ⟨last, hgen⟩ := hplaced.gen
  have hsymbols := isSymbol_innerLines site.frame params (isSymbol_genCode hgen)
  rw [hlines] at hcode hsymbols hhi
  exact Host.mark?_eq hcode hsymbols hfirst hlo hhi

theorem mark?_entry {pc : Nat} (hlo : start < pc)
    (hhi : pc ≤ start + 1 + (innerLines site.frame params body).length) :
    h.mark? pc "entry" = some (entryLine start site.frame) := by
  rw [hplaced.mark?_eq rfl (by simp) hlo hhi]
  simp [entryLine]

include hp

theorem legal : site.Legal p.arity (StringTable.ofProgram p) where
  meets := (hp.valid _ hplaced.mem hplaced.internal).meets
  complete := complete_of_wellFormed hp hplaced.mem hplaced.internal hplaced.frame site.labels
  arity _ := arity_of_wellFormed hp hplaced.mem

theorem opened_keeps : GenState.Keeps { strings := StringTable.ofProgram p, reuse := options.reuse } opened := by
  obtain ⟨_, _, hbind, hkeeps⟩ :=
    bindParams_of_wellFormed hp hplaced.mem hplaced.internal hplaced.frame site.labels
  cases hplaced.bind.symm.trans hbind
  exact hkeeps

/-- The code can be cut before its first instruction. -/
theorem cut_zero : Cut options site p.arity (StringTable.ofProgram p) body 0 opened [] body := by
  have hkeeps := hplaced.opened_keeps hp
  exact ⟨rfl, hplaced.gen, ready_of_wellFormed hp hplaced.mem hplaced.internal site.labels hkeeps, hkeeps.strings,
    fun name hname => by cases hname⟩

/-- No label is named like the ends of a function. -/
theorem label_ne (hname : name ∈ Code.labels site.func.code) : name ≠ "entry" ∧ name ≠ "exit" := by
  obtain ⟨x, hx, hlabel⟩ := List.mem_filterMap.mp hname
  have hdst := (Instr.label?_eq_some_iff.mp hlabel).2
  exact (hplaced.legal hp).complete.proper (.label name)
    (Code.Func.mem_operands_of_instr hx (by simp [Instr.operands, hdst]))

/-- The marks among the lines of the instructions are labels of the code. -/
theorem mem_labels (hname : .mark name ∈ body) : name ∈ Code.labels site.func.code := by
  rcases (hplaced.cut_zero hp).exists_at (hplaced.legal hp) (Nat.le_refl _) with
    ⟨g, before, behind, hcut⟩ | ⟨y, hy, _⟩
  · obtain ⟨last, hgen⟩ := hcut.gen
    rw [List.drop_length] at hgen
    obtain ⟨rfl, _⟩ := GenM.pure_eq_ok_iff.mp hgen
    rw [hcut.lines, List.append_nil] at hname
    simpa using hcut.marks name hname
  · simp at hy

theorem mark?_exit (hpos : pos ≤ body.length) :
    h.mark? (bodyLine start site.frame params + pos) "exit" =
      some (bodyLine start site.frame params + body.length) := by
  have hlines : innerLines site.frame params body = ((prologue site.frame).map .insn ++ .mark "entry" ::
      ((rewind site.frame ++ params).map .insn ++ body)) ++ .mark "exit" :: epilogue := by
    simp [innerLines]
  have hbody : .mark "exit" ∉ body := fun hmem => (hplaced.label_ne hp (hplaced.mem_labels hp hmem)).2 rfl
  obtain ⟨hlo, hhi⟩ := range start site.frame params hpos
  rw [hplaced.mark?_eq hlines (by simp [hbody]) hlo hhi]
  simp only [bodyLine, entryLine, List.length_append, List.length_cons, List.length_map]
  congr 1
  omega

/-- A label is found from everywhere inside the function, at the end of its line. -/
theorem mark?_label
    (hcut : Cut options site p.arity (StringTable.ofProgram p) body i g before behind)
    (hx : site.func.code[i]? = some x) (hlabel : x.label? = some name) (hpos : pos ≤ body.length) :
    h.mark? (bodyLine start site.frame params + pos) name =
      some (bodyLine start site.frame params + (before ++ announcement options x).length) := by
  obtain ⟨code, covered, g', rest, hinstr, rfl, _, _⟩ := hcut.step (hplaced.legal hp) hx
  obtain ⟨rfl, rfl, rfl⟩ := genInstr_label hlabel hinstr
  have hlines : innerLines site.frame params body = ((prologue site.frame).map .insn ++ .mark "entry" ::
      ((rewind site.frame ++ params).map .insn ++ (before ++ announcement options x))) ++ .mark name ::
        (rest ++ .mark "exit" :: epilogue) := by
    simp [innerLines, hcut.lines]
  have hname := List.mem_filterMap.mpr ⟨x, List.mem_of_getElem? hx, hlabel⟩
  have hbefore : .mark name ∉ before := fun hmem => Code.not_mem_labels_take
    (hp.valid _ hplaced.mem hplaced.internal).labels hx hlabel (hcut.marks name hmem)
  have hannounced : .mark name ∉ announcement options x := by
    unfold announcement
    split <;> simp
  obtain ⟨hlo, hhi⟩ := range start site.frame params hpos
  rw [hplaced.mark?_eq hlines (by simp [hbefore, hannounced, (hplaced.label_ne hp hname).1]) hlo hhi]
  simp only [bodyLine, entryLine, List.length_append, List.length_cons, List.length_map]
  congr 1
  omega

/-- The code can be cut behind each label, and the label is found from everywhere inside the
    function. -/
theorem cut_label (hx : site.func.code[i]? = some x) (hlabel : x.label? = some name) :
    ∃ g before behind, Cut options site p.arity (StringTable.ofProgram p) body (i + 1) g
        (before ++ [.mark name]) behind ∧ g.cache = .empty ∧ g.pending = #[] ∧
          ∀ pos, pos ≤ body.length → h.mark? (bodyLine start site.frame params + pos) name =
            some (bodyLine start site.frame params + before.length) := by
  have hlegal := hplaced.legal hp
  have hop := (Instr.label?_eq_some_iff.mp hlabel).1
  have hi : i < site.func.code.length := (List.getElem?_eq_some_iff.mp hx).1
  rcases (hplaced.cut_zero hp).exists_at hlegal (Nat.le_of_lt hi) with
    ⟨g, before, behind, hcut⟩ | ⟨y, hy, hret, _⟩
  · obtain ⟨code, covered, g', rest, hinstr, _, _, hnext⟩ := hcut.step hlegal hx
    obtain ⟨rfl, rfl, rfl⟩ := genInstr_label hlabel hinstr
    rw [← List.append_assoc] at hnext
    refine ⟨_, before ++ announcement options x, rest, hnext, rfl, ?_, fun pos hpos =>
      hplaced.mark?_label hp hcut hx hlabel hpos⟩
    have hfit := hcut.ready.args
    rw [Code.drop_of_getElem? hx] at hfit
    exact Array.size_eq_zero_iff.mp ((Code.ArgsFit.of_op (by rw [hop]; rfl)).mp hfit).1
  · cases hx.symm.trans hy
    rw [hop] at hret
    cases hret

end Placed

end TreeCompiler.Asm
