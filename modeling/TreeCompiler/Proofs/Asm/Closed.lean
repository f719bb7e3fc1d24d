import TreeCompiler.Proofs.Asm.References
import TreeCompiler.Proofs.Code.Doubling
import TreeCompiler.Proofs.Pipeline

/-!
Nothing is left to be found by a linker in the text of a program but the functions that it declares as
external: marks, symbols and strings are defined wherever they are referred to.
-/

namespace TreeCompiler.Asm

open Code

/-- The mark that a line sets. -/
def Line.mark? : Line → Option String
  | .mark name => some name
  | _ => none

/-- The marks that lines set, in order. -/
def marksIn (lines : List Line) : List String :=
  lines.filterMap Line.mark?

/-- The parts of a text between its symbols: what stands before the first one, and then the lines of
    each function. -/
def parts (lines : List Line) : List (List Line) :=
  lines.splitOnP Line.isSymbol

/-- The lines of the data, which come before the code. -/
def dataLines (lines : List Line) : List Line :=
  lines.takeWhile (· ≠ .segment ".text")

/-- A text that defines what it refers to. -/
structure Closed (lines : List Line) : Prop where
  distinct : ∀ part ∈ parts lines, (marksIn part).Nodup
  jumps : ∀ part ∈ parts lines, ∀ name,
    .insn (.jump name) ∈ part ∨ .insn (.jumpIfZero name) ∈ part → name ∈ marksIn part
  calls : ∀ name, .insn (.call name) ∈ lines → .symbol name ∈ lines ∨ .external name ∈ lines
  strings : ∀ r index, .insn (.leaString r index) ∈ lines → ∃ text, .string index text ∈ dataLines lines

/-- What instructions can refer to. -/
structure Targets where
  marks : List String
  funcs : List String
  strings : Nat

/-- Whatever an instruction refers to is there. -/
def Insn.ResolvedBy (d : Targets) : Insn → Prop
  | .jump name | .jumpIfZero name => name ∈ d.marks
  | .call name => name ∈ d.funcs
  | .leaString _ index => index < d.strings
  | _ => True

/-- Whatever the instructions in lines refer to is there. -/
def ResolvedLines (d : Targets) (lines : List Line) : Prop :=
  ∀ x, .insn x ∈ lines → x.ResolvedBy d

/-- Lines between functions, which do nothing and set no mark. -/
def Line.isIdle : Line → Bool
  | .symbol _ | .mark _ | .insn _ => false
  | _ => true

section Lines

variable {ls ms : List Line} {xs : List Insn}

theorem marksIn_append : marksIn (ls ++ ms) = marksIn ls ++ marksIn ms :=
  List.filterMap_append

@[simp] theorem marksIn_map_insn : marksIn (xs.map .insn) = [] := by
  simp [marksIn, Line.mark?]

@[simp] theorem marksIn_mark (name : String) : marksIn (.mark name :: ls) = name :: marksIn ls :=
  rfl

theorem marksIn_of_isIdle (hls : ∀ l ∈ ls, l.isIdle = true) : marksIn ls = [] := by
  refine List.filterMap_eq_nil_iff.mpr fun l hl => ?_
  have hidle := hls l hl
  cases l with
  | mark name => cases hidle
  | _ => rfl

theorem isSymbol_of_isIdle (hls : ∀ l ∈ ls, l.isIdle = true) : ∀ l ∈ ls, l.isSymbol = false := by
  intro l hl
  have hidle := hls l hl
  cases l with
  | symbol name => cases hidle
  | _ => rfl

theorem ResolvedLines.of_insns {d : Targets} (hxs : ∀ x ∈ xs, x.ResolvedBy d) : ResolvedLines d (xs.map .insn) := by
  intro x hx
  obtain ⟨y, hy, heq⟩ := List.mem_map.mp hx
  cases heq
  exact hxs x hy

theorem ResolvedLines.append {d : Targets} (hls : ResolvedLines d ls) (hms : ResolvedLines d ms) :
    ResolvedLines d (ls ++ ms) :=
  fun x hx => (List.mem_append.mp hx).elim (hls x) (hms x)

theorem ResolvedLines.of_isIdle {d : Targets} (hls : ∀ l ∈ ls, l.isIdle = true) : ResolvedLines d ls :=
  fun x hx => by cases hls (.insn x) hx

theorem ResolvedLines.mark {d : Targets} {name : String} (hls : ResolvedLines d ls) :
    ResolvedLines d (.mark name :: ls) :=
  fun x hx => hls x ((List.mem_cons.mp hx).resolve_left (by simp))

/-- Lines without symbols go to the first part of what follows. -/
theorem parts_append (hls : ∀ l ∈ ls, l.isSymbol = false) {first : List Line} {rest : List (List Line)}
    (hms : parts ms = first :: rest) : parts (ls ++ ms) = (ls ++ first) :: rest := by
  induction ls with
  | nil => exact hms
  | cons l ls ih =>
    have hl : l.isSymbol = false := hls l (by simp)
    have htail := ih fun l hl => hls l (by simp [hl])
    rw [parts] at htail
    simp [parts, List.splitOnP_cons_eq_if_modifyHead, hl, htail]

/-- A symbol behind lines without one ends a part. -/
theorem parts_symbol (hls : ∀ l ∈ ls, l.isSymbol = false) (name : String) :
    parts (ls ++ .symbol name :: ms) = ls :: parts ms :=
  List.splitOnP_append_cons_of_forall_mem hls _ rfl _

theorem parts_nil : parts [] = [[]] :=
  List.splitOnP_eq_singleton fun _ hl => by cases hl

/-- Every instruction of a text is in one of its parts. -/
theorem exists_part {x : Insn} (hx : .insn x ∈ ls) : ∃ part ∈ parts ls, .insn x ∈ part := by
  induction ls with
  | nil => cases hx
  | cons l ls ih =>
    cases hl : l.isSymbol with
    | true =>
      have hne : .insn x ≠ l := fun heq => by
        subst heq
        cases hl
      obtain ⟨part, hpart, hmem⟩ := ih ((List.mem_cons.mp hx).resolve_left hne)
      refine ⟨part, ?_, hmem⟩
      simp only [parts, List.splitOnP_cons_eq_if_modifyHead, hl, if_true]
      exact List.mem_cons_of_mem _ hpart
    | false =>
      obtain ⟨first, rest, hparts⟩ : ∃ first rest, parts ls = first :: rest :=
        List.exists_cons_of_ne_nil (List.splitOnP_ne_nil _ _)
      have hcons : parts ([l] ++ ls) = ([l] ++ first) :: rest := parts_append (by simpa using hl) hparts
      rw [List.singleton_append] at hcons
      rw [hcons]
      rcases List.mem_cons.mp hx with rfl | hx
      · exact ⟨_, List.mem_cons_self, List.mem_cons_self⟩
      · obtain ⟨part, hpart, hmem⟩ := ih hx
        rw [hparts] at hpart
        rcases List.mem_cons.mp hpart with rfl | hpart
        · exact ⟨_, List.mem_cons_self, List.mem_cons_of_mem _ hmem⟩
        · exact ⟨part, List.mem_cons_of_mem _ hpart, hmem⟩

end Lines

variable {d : Targets} {site : Site} {options : Options} {g g' : GenState} {i : Nat} {covered : Bool}
  {code : List Instr} {ls : List Line} {p : Code.Program} {f : Func}

/-- Instructions that load what a table holds, by its numbers, may be emitted. -/
theorem admits_resolvedBy {strings : StringTable} (hd : d.strings = strings.strings.size) :
    Admits strings (· ∈ strings.strings) (· ∈ strings.strings) (Insn.ResolvedBy d) where
  nameless y hy := by
    cases y with
    | jump | jumpIfZero | call | leaString => cases hy
    | _ => trivial
  listed _ hs := hs
  handed _ hs := hs
  loads _ k _ _ hk := by
    rw [Insn.ResolvedBy, hd]
    exact (Array.getElem?_eq_some_iff.mp hk).1

theorem genCode_emits {strings : StringTable} (hd : d.strings = strings.strings.size)
    (hentry : "entry" ∈ d.marks) (hexit : "exit" ∈ d.marks)
    (htargets : ∀ x ∈ code, ∀ name, x.target? = some name → name ∈ d.marks)
    (hcallees : ∀ x ∈ code, ∀ name, x.op = .call → x.src1 = some (.func name) → name ∈ d.funcs)
    (htexts : ∀ x ∈ code, TextsAre (· ∈ strings.strings) x.operands) :
    (genCode options site i covered code).Emits strings (· ∈ strings.strings) (ResolvedLines d) := by
  induction code generalizing i covered with
  | nil => exact .pure (by simp [ResolvedLines])
  | cons x code ih =>
    rw [List.forall_mem_cons] at htargets hcallees htexts
    have hrest : ∀ i covered, (genCode options site i covered code).Emits strings (· ∈ strings.strings)
        (ResolvedLines d) :=
      fun _ _ => ih htargets.2 hcallees.2 htexts.2
    unfold genCode
    split
    · exact hrest _ _
    · refine ((admits_resolvedBy hd).genInstr hentry hexit
        (fun name hname => ⟨htargets.1 name hname, htargets.1 name hname⟩)
        hcallees.1 htexts.1 fun _ s hs => htexts.1 s (by simp [Instr.operands, hs])).within.bind fun r hcode =>
          (hrest _ _).bind fun rest hrest => .pure ?_
      refine .append (.append (fun y hy => ?_) hcode) hrest
      split at hy <;> simp at hy

/-- An instruction sets a mark for the label that it places. -/
theorem marksIn_genInstr {x : Instr} (hinstr : genInstr site i x g = .ok ((ls, covered), g')) :
    marksIn ls = x.label?.toList := by
  cases hlabel : x.label? with
  | none =>
    rcases (genInstr_gives g (ls, covered) g' hinstr).lines with ⟨xs, hxs⟩ | ⟨name, hname, _⟩
    · simp only at hxs
      rw [hxs, marksIn_map_insn]
      rfl
    · rw [hlabel] at hname
      cases hname
  | some name =>
    obtain ⟨rfl, _⟩ := genInstr_label hlabel hinstr
    rfl

/-- The marks in the lines of a function's instructions are the labels that its code places. -/
theorem marksIn_genCode (hcode : site.func.code.drop i = code)
    (hcovered : covered = true → ∀ y ∈ code.head?, y.op = .ret)
    (hgen : genCode options site i covered code g = .ok (ls, g')) : marksIn ls = Code.labels code := by
  induction code generalizing i covered g ls with
  | nil =>
    obtain ⟨rfl, rfl⟩ := GenM.pure_eq_ok_iff.mp hgen
    rfl
  | cons x code ih =>
    have hx : site.func.code[i]? = some x := by
      rw [← List.head?_drop, hcode, List.head?_cons]
    have hdrop : site.func.code.drop (i + 1) = code := by
      rw [Code.drop_of_getElem? hx] at hcode
      exact List.tail_eq_of_cons_eq hcode
    have hlabels : Code.labels (x :: code) = x.label?.toList ++ Code.labels code := by
      cases hlabel : x.label? <;> simp [Code.labels, hlabel]
    rw [hlabels]
    unfold genCode at hgen
    split at hgen
    · next hskip =>
      have hnone : x.label? = none := by
        unfold Instr.label?
        rw [hcovered hskip x rfl]
      rw [hnone]
      exact ih hdrop (fun hfalse => by cases hfalse) hgen
    · simp only [GenM.bind_eq_ok_iff, GenM.within_eq_ok_iff, GenM.pure_eq_ok_iff] at hgen
      obtain ⟨⟨lines, covers⟩, g₁, hinstr, rest, _, hrest, rfl, rfl⟩ := hgen
      have hcompiled := genInstr_gives g (lines, covers) g₁ hinstr
      have hnext : covers = true → ∀ y ∈ code.head?, y.op = .ret := by
        rintro rfl y hy
        obtain ⟨y', hy', hret⟩ := Cut.ret_of_compiled hcompiled
        rw [← hdrop, List.head?_drop, hy', Option.mem_some_iff] at hy
        exact hy ▸ hret
      have hannounced : marksIn (if options.comments then [.comment x.text] else []) = [] := by
        split <;> rfl
      have hlines := marksIn_genInstr hinstr
      simp only [marksIn_append, hannounced, hlines, ih hdrop hnext hrest, List.nil_append]

/-- The lines of a function as they stand in a text. -/
structure PartOf (p : Code.Program) (f : Func) (part : List Line) : Prop where
  marks : marksIn part = "entry" :: (Code.labels f.code ++ ["exit"])
  resolved : ResolvedLines ⟨marksIn part, p.funcs.map (·.name), (StringTable.ofProgram p).strings.size⟩ part

namespace PartOf

variable {part : List Line}

theorem append_idle (hpart : PartOf p f part) (hls : ∀ l ∈ ls, l.isIdle = true) : PartOf p f (part ++ ls) := by
  have hmarks : marksIn (part ++ ls) = marksIn part := by
    rw [marksIn_append, marksIn_of_isIdle hls, List.append_nil]
  refine ⟨hmarks.trans hpart.marks, ?_⟩
  rw [hmarks]
  exact hpart.resolved.append (.of_isIdle hls)

theorem nodup (hpart : PartOf p f part) (hp : p.WellFormed) (hf : f ∈ p.funcs) (hinternal : f.isExternal = false) :
    (marksIn part).Nodup := by
  have hlabels : ∀ name ∈ Code.labels f.code, name ≠ "entry" ∧ name ≠ "exit" := by
    intro name hname
    obtain ⟨x, hx, hlabel⟩ := List.mem_filterMap.mp hname
    have hdst := (Instr.label?_eq_some_iff.mp hlabel).2
    exact hp.proper hf hinternal (Func.mem_operands_of_instr hx (o := some (.label name))
      (by simp [Instr.operands, hdst]))
  rw [hpart.marks, List.nodup_cons, List.nodup_append]
  refine ⟨fun hmem => ?_, (hp.valid f hf hinternal).labels, by simp, fun name hname other hother => ?_⟩
  · rcases List.mem_append.mp hmem with hmem | hmem
    · exact (hlabels _ hmem).1 rfl
    · simp at hmem
  · rw [List.mem_singleton.mp hother]
    exact (hlabels name hname).2

end PartOf

/-- The lines of a function are its symbol, in front of which it may be made public, and a part. -/
theorem genFunc_part (hp : p.WellFormed) (hf : f ∈ p.funcs) (hinternal : f.isExternal = false)
    (hgen : genFunc options f (StringTable.ofProgram p) = .ok (ls, StringTable.ofProgram p)) :
    ∃ opening part, ls = opening ++ .symbol f.name :: part ∧ (∀ l ∈ opening, l.isIdle = true) ∧
      (∀ l ∈ part, l.isSymbol = false) ∧ PartOf p f part := by
  obtain ⟨frame, labels, params, g₁, body, g₂, hframe, hlabels, hparams, hbody, rfl, htable⟩ :=
    genFunc_eq_ok_iff.mp hgen
  refine ⟨_, innerLines frame params body, funcLines_eq f frame params body, ?_,
    isSymbol_innerLines frame params (isSymbol_genCode hbody), ?_⟩
  · intro l hl
    split at hl
    · rw [List.mem_singleton.mp hl]
      rfl
    · cases hl
  have hmarks : marksIn (innerLines frame params body) = "entry" :: (Code.labels f.code ++ ["exit"]) := by
    have hcode : marksIn body = Code.labels f.code := marksIn_genCode rfl (fun hfalse => by cases hfalse) hbody
    have hends : marksIn (.mark "exit" :: epilogue) = ["exit"] := rfl
    simp only [innerLines, marksIn_append, marksIn_map_insn, marksIn_mark, List.nil_append, hcode, hends]
  refine ⟨hmarks, ?_⟩
  rw [hmarks]
  obtain ⟨d, hd⟩ : ∃ d : Targets, d = ⟨"entry" :: (Code.labels f.code ++ ["exit"]), p.funcs.map (·.name),
    (StringTable.ofProgram p).strings.size⟩ := ⟨_, rfl⟩
  have hentry : "entry" ∈ d.marks := by simp [hd]
  have hexit : "exit" ∈ d.marks := by simp [hd]
  have htargets : ∀ x ∈ f.code, ∀ name, x.target? = some name → name ∈ d.marks := by
    intro x hx name hname
    rw [hd]
    exact List.mem_cons_of_mem _ (List.mem_append_left _ ((hp.valid f hf hinternal).targets x hx name hname))
  have hcallees : ∀ x ∈ f.code, ∀ name, x.op = .call → x.src1 = some (.func name) → name ∈ d.funcs := by
    intro x hx name hop hname
    obtain ⟨callee, n, hcallee, harity⟩ := (hp.shaped f hf hinternal).fragment.args.exists_arity hx hop
    rw [hname] at hcallee
    cases hcallee
    obtain ⟨h, hh, _⟩ := Option.map_eq_some_iff.mp harity
    obtain ⟨hmem, rfl⟩ := Code.Program.mem_of_func? hh
    rw [hd]
    exact List.mem_map_of_mem hmem
  have htexts : ∀ x ∈ f.code, TextsAre (· ∈ (StringTable.ofProgram p).strings) x.operands :=
    fun x hx s hs => StringTable.mem_ofProgram hf (List.mem_flatMap.mpr ⟨x, hx, hs⟩)
  have hstrings : d.strings = (StringTable.ofProgram p).strings.size := by rw [hd]
  have hd' := admits_resolvedBy hstrings
  obtain ⟨hparams', hg₁, hpending⟩ := hd'.bindParams _ params g₁ rfl (by simp [TextsAre]) hparams
  have hbody' := (genCode_emits hstrings hentry hexit htargets hcallees htexts g₁ body g₂ hg₁ hpending hbody).1
  have hprologue : ∀ y ∈ prologue frame, y.ResolvedBy d := by
    refine hd'.all ?_
    unfold prologue
    split <;> rfl
  have hrewind : ∀ y ∈ rewind frame, y.ResolvedBy d := by
    refine hd'.all ?_
    unfold rewind
    split <;> rfl
  rw [← hd, innerLines]
  refine .append (.of_insns hprologue) (.mark (.append (.of_insns (List.forall_mem_append.mpr ⟨hrewind, hparams'⟩))
    (.append hbody' (.mark ?_))))
  simp [ResolvedLines, epilogue, Insn.ResolvedBy]

/-- The parts of the text of functions: what stands before the first symbol, then one for each function
    that has code. -/
theorem genFuncs_parts (hp : p.WellFormed) {funcs : List Func} (hfuncs : ∀ f ∈ funcs, f ∈ p.funcs)
    (hgen : genFuncs options (StringTable.ofProgram p) funcs = .ok ls) :
    ∃ idle rest, parts ls = idle :: rest ∧ (∀ l ∈ idle, l.isIdle = true) ∧
      List.Forall₂ (PartOf p) (funcs.filter (!·.isExternal)) rest := by
  induction funcs generalizing ls with
  | nil =>
    cases hgen
    exact ⟨[], [], parts_nil, by simp, .nil⟩
  | cons f funcs ih =>
    have hf := hfuncs f List.mem_cons_self
    obtain ⟨own, others, rfl, hothers, hown⟩ := genFuncs_cons hp hf hgen
    obtain ⟨idle, rest, hparts, hidle, hrest⟩ := ih (fun g hg => hfuncs g (List.mem_cons_of_mem _ hg)) hothers
    rcases hown with ⟨hexternal, rfl⟩ | ⟨hinternal, hown⟩
    · have hls : ∀ l ∈ [Line.blank, .external f.name], l.isIdle = true := by simp [Line.isIdle]
      refine ⟨[Line.blank, .external f.name] ++ idle, rest, parts_append (isSymbol_of_isIdle hls) hparts,
        List.forall_mem_append.mpr ⟨hls, hidle⟩, ?_⟩
      simpa [hexternal] using hrest
    · obtain ⟨opening, part, rfl, hopening, hpart, hpartOf⟩ := genFunc_part hp hf hinternal hown
      have hls : ∀ l ∈ .blank :: opening, l.isIdle = true := List.forall_mem_cons.mpr ⟨rfl, hopening⟩
      refine ⟨.blank :: opening, (part ++ idle) :: rest, ?_, hls, ?_⟩
      · rw [← parts_append hpart hparts, ← parts_symbol (isSymbol_of_isIdle hls) f.name]
        simp
      · rw [List.filter_cons_of_pos (by simp [hinternal])]
        exact .cons (hpartOf.append_idle hidle) hrest

/-- Every function of a program has a symbol or is declared. -/
theorem symbol_or_external_mem (hp : p.WellFormed) {funcs : List Func} (hfuncs : ∀ f ∈ funcs, f ∈ p.funcs)
    (hgen : genFuncs options (StringTable.ofProgram p) funcs = .ok ls) (hf : f ∈ funcs) :
    .symbol f.name ∈ ls ∨ .external f.name ∈ ls := by
  induction funcs generalizing ls with
  | nil => cases hf
  | cons g funcs ih =>
    have hg := hfuncs g List.mem_cons_self
    obtain ⟨own, rest, rfl, hrest, hown⟩ := genFuncs_cons hp hg hgen
    rcases List.mem_cons.mp hf with rfl | hf
    · rcases hown with ⟨_, rfl⟩ | ⟨hinternal, hown⟩
      · exact .inr (by simp)
      · obtain ⟨opening, part, rfl, _⟩ := genFunc_part hp hg hinternal hown
        exact .inl (by simp)
    · refine (ih (fun g hg => hfuncs g (List.mem_cons_of_mem _ hg)) hrest hf).imp (fun hmem => ?_) fun hmem => ?_
      · exact List.mem_cons_of_mem _ (List.mem_append_right _ hmem)
      · exact List.mem_cons_of_mem _ (List.mem_append_right _ hmem)

/-- The lines before the functions of a program. -/
def opening (p : Code.Program) : List Line :=
  [.segment ".data"] ++ (StringTable.ofProgram p).lines ++ [.blank, .segment ".text"]

theorem isIdle_opening : ∀ l ∈ opening p, l.isIdle = true := by
  intro l hl
  simp only [opening, StringTable.lines, List.mem_append, List.mem_cons, List.not_mem_nil, or_false,
    List.mem_mapIdx] at hl
  rcases hl with (rfl | ⟨k, _, rfl⟩) | rfl | rfl <;> rfl

theorem mem_dataLines {index : Nat} (hindex : index < (StringTable.ofProgram p).strings.size) :
    ∃ text, .string index text ∈ dataLines (opening p ++ ls) := by
  have hbefore : ∀ l ∈ [.segment ".data"] ++ (StringTable.ofProgram p).lines ++ [.blank],
      decide (l ≠ .segment ".text") = true := by
    simp only [StringTable.lines, List.mem_append, List.mem_cons, List.not_mem_nil, or_false, List.mem_mapIdx]
    rintro l ((rfl | ⟨k, _, rfl⟩) | rfl) <;> simp
  have hsplit : opening p ++ ls =
      ([.segment ".data"] ++ (StringTable.ofProgram p).lines ++ [.blank]) ++ .segment ".text" :: ls := by
    simp [opening]
  rw [dataLines, hsplit, List.takeWhile_append_of_pos hbefore]
  refine ⟨(StringTable.ofProgram p).strings[index], ?_⟩
  have hmem : .string index (StringTable.ofProgram p).strings[index] ∈ (StringTable.ofProgram p).lines :=
    List.mem_mapIdx.mpr ⟨index, by simpa using hindex, by simp⟩
  simp [hmem]

/-- The text of a well-formed program has one part for each function with code, and is closed. -/
theorem closed_genProgram (hp : p.WellFormed) (hgen : genProgram options p = .ok ls) :
    (parts ls).tail.map marksIn = (p.funcs.filter (!·.isExternal)).map
      (fun f => "entry" :: (Code.labels f.code ++ ["exit"])) ∧ Closed ls := by
  obtain ⟨fs, hfs, heq⟩ := bind_eq_ok_iff.mp hgen
  have hls : ls = opening p ++ fs := (Except.ok.inj heq).symm
  obtain ⟨idle, rest, hrest, hidle, hforall⟩ := genFuncs_parts hp (fun _ hf => hf) hfs
  have hparts : parts ls = (opening p ++ idle) :: rest := by
    rw [hls]
    exact parts_append (isSymbol_of_isIdle isIdle_opening) hrest
  have hfirst : ∀ l ∈ opening p ++ idle, l.isIdle = true := List.forall_mem_append.mpr ⟨isIdle_opening, hidle⟩
  have hpartOf : ∀ part ∈ parts ls, (∀ l ∈ part, l.isIdle = true) ∨
      ∃ f ∈ p.funcs, f.isExternal = false ∧ PartOf p f part := by
    intro part hpart
    rw [hparts] at hpart
    rcases List.mem_cons.mp hpart with rfl | hpart
    · exact .inl hfirst
    · obtain ⟨f, hf, hpart⟩ := Lower.exists_of_mem_right hforall hpart
      rw [List.mem_filter, Bool.not_eq_true'] at hf
      exact .inr ⟨f, hf.1, hf.2, hpart⟩
  have hresolved : ∀ x, .insn x ∈ ls → ∃ names, x.ResolvedBy
      ⟨names, p.funcs.map (·.name), (StringTable.ofProgram p).strings.size⟩ := by
    intro x hx
    obtain ⟨part, hpart, hmem⟩ := exists_part hx
    rcases hpartOf part hpart with hidle | ⟨f, _, _, hpart⟩
    · cases hidle _ hmem
    · exact ⟨_, hpart.resolved x hmem⟩
  refine ⟨?_, ⟨fun part hpart => ?_, fun part hpart name hjump => ?_, fun name hcall => ?_,
    fun r index hlea => ?_⟩⟩
  · rw [hparts, List.tail_cons, ← List.forall₂_eq_eq_eq, List.forall₂_map_left_iff, List.forall₂_map_right_iff]
    exact List.Forall₂.flip (hforall.imp fun f part hpart => hpart.marks)
  · rcases hpartOf part hpart with hidle | ⟨f, hf, hinternal, hpart⟩
    · rw [marksIn_of_isIdle hidle]
      exact List.nodup_nil
    · exact hpart.nodup hp hf hinternal
  · rcases hpartOf part hpart with hidle | ⟨f, hf, hinternal, hpart⟩
    · rcases hjump with hjump | hjump <;> cases hidle _ hjump
    · rcases hjump with hjump | hjump
      · exact hpart.resolved _ hjump
      · exact hpart.resolved _ hjump
  · obtain ⟨names, hname⟩ := hresolved _ hcall
    obtain ⟨f, hf, rfl⟩ := List.mem_map.mp hname
    rw [hls]
    exact (symbol_or_external_mem hp (fun _ hf => hf) hfs hf).imp (List.mem_append_right _)
      (List.mem_append_right _)
  · obtain ⟨names, hindex⟩ := hresolved _ hlea
    rw [hls]
    exact mem_dataLines hindex

/-- The assembly text of a program is closed. -/
theorem buildAssembly_closed {prog : Tree.Program} {text : String}
    (htext : buildAssembly options prog = .ok text) :
    ∃ p lines, buildCode prog = .ok p ∧ genProgram options p = .ok lines ∧ text = render lines ∧
      (parts lines).tail.map marksIn = (p.funcs.filter (!·.isExternal)).map
        (fun f => "entry" :: (Code.labels f.code ++ ["exit"])) ∧ Closed lines := by
  obtain ⟨p, hbuild, hassemble⟩ := bind_eq_ok_iff.mp htext
  obtain ⟨lines, hgen, hrender⟩ := map_eq_ok_iff.mp (mapError_eq_ok_iff.mp hassemble)
  obtain ⟨hparts, hclosed⟩ := closed_genProgram (buildCode_wellFormed hbuild) hgen
  exact ⟨p, lines, hbuild, hgen, hrender.symm, hparts, hclosed⟩

/-- A program that writes a string several times and starts over. -/
def greeting : Tree.Program :=
  ⟨[.func ⟨"puts", [⟨"s", .str⟩], .number, false, true⟩ .missing,
    .func ⟨"main", [⟨"n", .number⟩], .number, true, false⟩ (.block [
      .loop (.binary "<" (.var "n") (.literal (.number 3))) (.block [
        .call "puts" [.literal (.str [104, 105])], .unary "++" (.var "n")]),
      .call "main" [.var "n"]])]⟩

/-- It refers to a string, to a declared function, to labels and to its entry. -/
theorem greeting_closed : ∃ text p lines, buildAssembly {} greeting = .ok text ∧ buildCode greeting = .ok p ∧
    genProgram {} p = .ok lines ∧ text = render lines ∧
      (parts lines).tail.map marksIn = [["entry", "L0", "L1", "exit"]] ∧ .insn (.leaString .rax 0) ∈ lines ∧
        .insn (.call "puts") ∈ lines ∧ .insn (.jump "entry") ∈ lines ∧ Closed lines := by
  have hsome : (buildAssembly {} greeting).toOption.isSome = true := by decide +kernel
  obtain ⟨text, htext⟩ := Option.isSome_iff_exists.mp hsome
  obtain ⟨p, lines, hbuild, hgen, hrender, _, hclosed⟩ := buildAssembly_closed (eq_ok_of_toOption htext)
  have hcontent : ((buildCode greeting).toOption.bind fun p => (genProgram {} p).toOption).map (fun lines =>
      decide ((parts lines).tail.map marksIn = [["entry", "L0", "L1", "exit"]] ∧
        .insn (.leaString .rax 0) ∈ lines ∧ .insn (.call "puts") ∈ lines ∧ .insn (.jump "entry") ∈ lines)) =
      some true := by decide +kernel
  rw [hbuild] at hcontent
  simp only [Except.toOption, Option.bind_some, hgen, Option.map_some, Option.some.injEq,
    decide_eq_true_eq] at hcontent
  obtain ⟨hmarks, hstring, hcall, hjump⟩ := hcontent
  exact ⟨text, p, lines, eq_ok_of_toOption htext, hbuild, hgen, hrender, hmarks, hstring, hcall, hjump, hclosed⟩

end TreeCompiler.Asm
