import Mathlib.Data.List.Flatten
import TreeCompiler.Proofs.Asm.Placement
import TreeCompiler.Proofs.Code.Echo

/-!
What comments add to an assembly text.
-/

namespace TreeCompiler.Asm

open Code

/-- Whether a line is meant as a comment. -/
def Line.isComment : Line → Bool
  | .comment _ => true
  | _ => false

/-- The lines that are not meant as comments. -/
def uncommented (ls : List Line) : List Line :=
  ls.filter (!·.isComment)

@[simp] theorem uncommented_append (ls ls' : List Line) :
    uncommented (ls ++ ls') = uncommented ls ++ uncommented ls' :=
  List.filter_append ..

@[simp] theorem uncommented_insns (xs : List Insn) : uncommented (xs.map .insn) = xs.map .insn := by
  rw [uncommented, List.filter_eq_self]
  intro l hl
  obtain ⟨x, _, rfl⟩ := List.mem_map.mp hl
  rfl

section Generation

variable {site : Site} {options : Options}

theorem uncommented_genInstr {i : Nat} {x : Instr} {g g' : GenState} {code : List Line} {covered : Bool}
    (hgen : genInstr site i x g = .ok ((code, covered), g')) : uncommented code = code := by
  rcases (genInstr_gives g (code, covered) g' hgen).lines with ⟨xs, hxs⟩ | ⟨name, _, hname⟩
  · rw [show code = xs.map .insn from hxs, uncommented_insns]
  · rw [show code = [.mark name] from hname]
    rfl

/-- Compiling without comments is compiling with them and leaving them out. -/
theorem genCode_uncommented (index : Nat) (covered : Bool) (code : List Instr) (g : GenState) :
    genCode { options with comments := false } site index covered code g =
      (genCode { options with comments := true } site index covered code g).map
        fun r => (uncommented r.1, r.2) := by
  induction code generalizing index covered g with
  | nil => rfl
  | cons x rest ih =>
    unfold genCode
    cases covered with
    | true => exact ih _ _ _
    | false =>
      refine bind_eq_map_bind_same ?_
      rintro ⟨⟨lines, covers⟩, g₁⟩ hinstr
      refine bind_eq_map_bind (ih (index + 1) covers g₁) fun r _ => ?_
      have hlines := uncommented_genInstr (GenM.within_eq_ok_iff.mp hinstr)
      have hall : uncommented ([.comment x.text] ++ lines ++ r.1) = lines ++ uncommented r.1 := by
        rw [uncommented_append, uncommented_append, hlines]
        rfl
      change Except.ok (lines ++ uncommented r.1, r.2) =
        Except.ok (uncommented ([.comment x.text] ++ lines ++ r.1), r.2)
      rw [hall]

/-- The lines around the body of a function have no comments. -/
theorem uncommented_funcLines (f : Func) (frame : Frame) (params : List Insn) (body : List Line) :
    uncommented (funcLines f frame params body) = funcLines f frame params (uncommented body) := by
  unfold funcLines
  simp only [uncommented_append, uncommented_insns]
  congr <;> split <;> rfl

theorem genFunc_uncommented (f : Func) (strings : StringTable) :
    genFunc { options with comments := false } f strings =
      (genFunc { options with comments := true } f strings).map fun r => (uncommented r.1, r.2) := by
  unfold genFunc
  refine bind_eq_map_bind_same fun frame _ => bind_eq_map_bind_same fun labels _ => ?_
  refine bind_eq_map_bind (h := fun r : List Line × GenState => (uncommented r.1, r.2)) ?_ fun r _ => ?_
  · refine bind_eq_map_bind_same fun params _ => bind_eq_map_bind (genCode_uncommented 0 false f.code _) fun r _ => ?_
    change Except.ok (params.1.map Line.insn ++ uncommented r.1, r.2) =
      Except.ok (uncommented (params.1.map Line.insn ++ r.1), r.2)
    rw [uncommented_append, uncommented_insns]
  · change Except.ok (funcLines f frame [] (uncommented r.1), r.2.strings) =
      Except.ok (uncommented (funcLines f frame [] r.1), r.2.strings)
    rw [uncommented_funcLines]

theorem genFuncs_uncommented (strings : StringTable) (fs : List Func) :
    genFuncs { options with comments := false } strings fs =
      (genFuncs { options with comments := true } strings fs).map uncommented := by
  induction fs generalizing strings with
  | nil => rfl
  | cons f fs ih =>
    have hrest (own : List Line × StringTable) :
        (genFuncs { options with comments := false } own.2 fs >>= fun rest =>
          pure ([.blank] ++ uncommented own.1 ++ rest)) =
        (genFuncs { options with comments := true } own.2 fs >>= fun rest =>
          pure ([.blank] ++ own.1 ++ rest)).map uncommented := by
      refine bind_eq_map_bind (ih own.2) fun rest _ => ?_
      change Except.ok ([.blank] ++ uncommented own.1 ++ uncommented rest) =
        Except.ok (uncommented ([.blank] ++ own.1 ++ rest))
      rw [uncommented_append, uncommented_append]
      rfl
    unfold genFuncs
    dsimp only
    split
    · split
      · exact hrest ([.external f.name], strings)
      · rfl
    · rw [genFunc_uncommented]
      cases genFunc { options with comments := true } f strings with
      | error e => rfl
      | ok own => exact hrest own

/-- Without comments a program compiles to the lines that it compiles to with comments, less the
    comments, or it fails in the same way. -/
theorem genProgram_uncommented (p : Code.Program) :
    genProgram { options with comments := false } p =
      (genProgram { options with comments := true } p).map uncommented := by
  refine bind_eq_map_bind (genFuncs_uncommented _ p.funcs) fun funcs _ => ?_
  have hstrings : uncommented (StringTable.ofProgram p).lines = (StringTable.ofProgram p).lines := by
    rw [uncommented, List.filter_eq_self]
    intro l hl
    obtain ⟨index, _, rfl⟩ := List.mem_mapIdx.mp hl
    rfl
  change Except.ok ([.segment ".data"] ++ (StringTable.ofProgram p).lines ++ [.blank, .segment ".text"] ++
      uncommented funcs) =
    Except.ok (uncommented ([.segment ".data"] ++ (StringTable.ofProgram p).lines ++ [.blank, .segment ".text"] ++
      funcs))
  simp only [uncommented_append, hstrings]
  rfl

end Generation

section Announced

variable {site : Site} {options : Options} {i : Nat} {x : Instr} {g g' : GenState} {ls : List Line}

theorem covers_iff_elided {lines : List Line} {covers : Bool} (hx : site.func.code[i]? = some x)
    (hgen : genInstr site i x g = .ok ((lines, covers), g')) : covers = true ↔ site.func.Elided (i + 1) := by
  refine (genInstr_gives g (lines, covers) g' hgen).covered.trans ?_
  unfold returnsNext
  constructor
  · rintro ⟨hop, hsrc, hnext⟩
    split at hnext
    · next ret hret =>
      obtain ⟨hret', hsrc'⟩ := of_decide_eq_true hnext
      exact ⟨i, x, ret, rfl, hx, hret, hop, hsrc, hret', hsrc'⟩
    · cases hnext
  · rintro ⟨j, call, ret, hj, hcall, hret, hop, hsrc, hret', hsrc'⟩
    cases hj
    rw [hx] at hcall
    cases hcall
    refine ⟨hop, hsrc, ?_⟩
    rw [hret]
    exact decide_eq_true ⟨hret', hsrc'⟩

/-- The comments among the lines of instructions are the listings of those that are not passed over. -/
theorem mem_comments_genCode {covered : Bool} {code : List Instr} (hcode : site.func.code.drop i = code)
    (hcovered : covered = true ↔ site.func.Elided i)
    (hgen : genCode { options with comments := true } site i covered code g = .ok (ls, g')) {text : String} :
    Line.comment text ∈ ls ↔
      ∃ j x, i ≤ j ∧ site.func.code[j]? = some x ∧ ¬ site.func.Elided j ∧ x.text = text := by
  induction code generalizing i covered g ls with
  | nil =>
    cases hgen
    refine iff_of_false (by simp) ?_
    rintro ⟨j, x, hij, hx, _⟩
    have hlength := List.drop_eq_nil_iff.mp hcode
    rw [List.getElem?_eq_none (by omega)] at hx
    cases hx
  | cons x code ih =>
    have hx : site.func.code[i]? = some x := by
      rw [← List.head?_drop, hcode]
      rfl
    have hdrop : site.func.code.drop (i + 1) = code := by
      rw [← List.tail_drop, hcode]
      rfl
    -- The instructions from here on are this one and those behind it.
    have hsplit : (∃ j y, i ≤ j ∧ site.func.code[j]? = some y ∧ ¬ site.func.Elided j ∧ y.text = text) ↔
        (¬ site.func.Elided i ∧ x.text = text) ∨
          ∃ j y, i + 1 ≤ j ∧ site.func.code[j]? = some y ∧ ¬ site.func.Elided j ∧ y.text = text := by
      constructor
      · rintro ⟨j, y, hij, hy, helided, htext⟩
        rcases Nat.eq_or_lt_of_le hij with rfl | hlt
        · rw [hx] at hy
          cases hy
          exact .inl ⟨helided, htext⟩
        · exact .inr ⟨j, y, hlt, hy, helided, htext⟩
      · rintro (⟨helided, htext⟩ | ⟨j, y, hij, hy, helided, htext⟩)
        · exact ⟨i, x, Nat.le_refl i, hx, helided, htext⟩
        · exact ⟨j, y, by omega, hy, helided, htext⟩
    rw [hsplit]
    unfold genCode at hgen
    cases covered with
    | true =>
      have helided := hcovered.mp rfl
      have hnext : false = true ↔ site.func.Elided (i + 1) := iff_of_false Bool.false_ne_true helided.not_succ
      rw [if_pos rfl] at hgen
      rw [ih hdrop hnext hgen]
      exact (or_iff_right fun hfirst => hfirst.1 helided).symm
    | false =>
      have helided : ¬ site.func.Elided i := fun h => Bool.false_ne_true (hcovered.mpr h)
      simp only [Bool.false_eq_true, if_false, GenM.bind_eq_ok_iff, GenM.within_eq_ok_iff, GenM.pure_eq_ok_iff] at hgen
      obtain ⟨⟨lines, covers⟩, g₁, hinstr, rest, _, hrest, rfl, rfl⟩ := hgen
      have hlines : Line.comment text ∉ lines := by
        rw [← uncommented_genInstr hinstr]
        simp [uncommented, Line.isComment]
      have hbehind := ih hdrop (covers_iff_elided hx hinstr) hrest
      simp [hlines, hbehind, helided, eq_comm]

theorem mem_comments_funcLines {f : Func} {frame : Frame} {params : List Insn} {body : List Line} {text : String} :
    Line.comment text ∈ funcLines f frame params body ↔ Line.comment text ∈ body := by
  unfold funcLines
  split <;> split <;> split <;> simp

theorem mem_comments_genFuncs {strings : StringTable} {fs : List Func}
    (hgen : genFuncs { options with comments := true } strings fs = .ok ls) {text : String} :
    Line.comment text ∈ ls ↔ ∃ f ∈ fs, ∃ i x, f.code[i]? = some x ∧ ¬ f.Elided i ∧ x.text = text := by
  induction fs generalizing strings ls with
  | nil =>
    cases hgen
    simp
  | cons f fs ih =>
    obtain ⟨own, strings', rest, hone, hrest, rfl⟩ := genFuncs_cons_eq_ok_iff.mp hgen
    have hown : Line.comment text ∈ own ↔ ∃ i x, f.code[i]? = some x ∧ ¬ f.Elided i ∧ x.text = text := by
      rcases hone with ⟨_, hcode, rfl, _⟩ | ⟨_, hfunc⟩
      · simp [hcode]
      · obtain ⟨frame, labels, params, g₁, body, g₂, _, _, _, hbody, rfl, _⟩ := genFunc_eq_ok_iff.mp hfunc
        have hfirst : false = true ↔ f.Elided 0 := by
          refine iff_of_false Bool.false_ne_true ?_
          rintro ⟨j, _, _, hj, _⟩
          omega
        rw [mem_comments_funcLines, mem_comments_genCode rfl hfirst hbody]
        simp
    simp [hown, ih hrest]

/-- The comments of a program are the listings of its instructions, but for those that are passed over. -/
theorem mem_comments_genProgram {p : Code.Program} (hgen : genProgram { options with comments := true } p = .ok ls)
    {text : String} :
    Line.comment text ∈ ls ↔ ∃ f ∈ p.funcs, ∃ i x, f.code[i]? = some x ∧ ¬ f.Elided i ∧
      x.text = text := by
  obtain ⟨funcs, hfuncs, hpure⟩ := bind_eq_ok_iff.mp hgen
  cases hpure
  rw [← mem_comments_genFuncs hfuncs]
  simp [StringTable.lines]

end Announced

section Texts

/-- What is left of a line when comment lines are taken out of the text. -/
def Line.kept (l : Line) : List (List Char) :=
  Text.keptLines l.text.toList.dropLast

/-- A line ends with a line break. -/
theorem Line.text_toList (l : Line) : l.text.toList = l.text.toList.dropLast ++ ['\n'] := by
  have hlast : ∃ s : String, l.text = s ++ "\n" := by
    cases l with
    | blank => exact ⟨"", rfl⟩
    | symbol name => exact ⟨symbolText name ++ ":", by rw [String.append_assoc]; rfl⟩
    | mark name => exact ⟨markText name ++ ":", by rw [String.append_assoc]; rfl⟩
    | _ => exact ⟨_, rfl⟩
  obtain ⟨s, hs⟩ := hlast
  simp [hs]

theorem keptLines_render (ls : List Line) :
    Text.keptLines (render ls).toList = ls.flatMap Line.kept ++ [[]] := by
  induction ls with
  | nil => rfl
  | cons l ls ih =>
    have hrender : (render (l :: ls)).toList = l.text.toList.dropLast ++ '\n' :: (render ls).toList := by
      calc
        (render (l :: ls)).toList = l.text.toList ++ (render ls).toList := by
          rw [render, List.map_cons, String.join_cons, String.toList_append]
          rfl
        _ = (l.text.toList.dropLast ++ ['\n']) ++ (render ls).toList := by rw [← l.text_toList]
        _ = l.text.toList.dropLast ++ '\n' :: (render ls).toList := by simp
    rw [hrender, Text.keptLines_append, ih, List.flatMap_cons, List.append_assoc]
    rfl

/-- A comment leaves nothing exactly if the text in it stays in it. -/
theorem Line.kept_comment {text : String} : (Line.comment text).kept = [] ↔ Text.StaysComment text.toList := by
  have hbody : (Line.comment text).text.toList.dropLast = "\t; ".toList ++ text.toList := by
    rw [Line.text, String.toList_append, String.toList_append]
    exact List.dropLast_concat
  rw [Line.kept, hbody, Text.keptLines_comment (by decide) (by decide)]

/-- Leaving elements out does not show exactly if nothing comes from them. -/
theorem flatMap_filter_eq_iff {α β : Type} {h : α → List β} {q : α → Bool} {as : List α} :
    as.flatMap h = (as.filter q).flatMap h ↔ ∀ a ∈ as, q a = false → h a = [] := by
  induction as with
  | nil => simp
  | cons a as ih =>
    cases hq : q a with
    | true => simp [hq, ih]
    | false =>
      have hlength : ((as.filter q).flatMap h).length ≤ (as.flatMap h).length :=
        ((List.filter_sublist (p := q)).flatMap h).length_le
      rw [List.filter_cons_of_neg (by simp [hq]), List.flatMap_cons, List.forall_mem_cons, ← ih]
      constructor
      · intro heq
        have hnil : h a = [] := by
          have hsum := congrArg List.length heq
          rw [List.length_append] at hsum
          exact List.eq_nil_of_length_eq_zero (by omega)
        rw [hnil] at heq
        exact ⟨fun _ => hnil, heq⟩
      · rintro ⟨hnil, heq⟩
        rw [hnil hq]
        exact heq

end Texts

/-- Taking the comment lines out of the texts of a program with and without comments leaves the same
    exactly if the names in the comments stay in them. -/
theorem withoutComments_render {p : Code.Program} {options : Options} {ls : List Line}
    (hgen : genProgram { options with comments := true } p = .ok ls) :
    Text.withoutComments (render ls) = Text.withoutComments (render (uncommented ls)) ↔
      ∀ f ∈ p.funcs, ∀ name, f.Shows name → Text.StaysComment name.toList := by
  rw [Text.withoutComments_eq_iff (by simp [keptLines_render]) (by simp [keptLines_render]), keptLines_render,
    keptLines_render, List.append_left_inj, uncommented, flatMap_filter_eq_iff]
  have hcomments : (∀ l ∈ ls, (!l.isComment) = false → l.kept = []) ↔
      ∀ text, Line.comment text ∈ ls → Text.StaysComment text.toList := by
    constructor
    · exact fun hall text htext => Line.kept_comment.mp (hall _ htext rfl)
    · intro hall l hl hcomment
      cases l with
      | comment text => exact Line.kept_comment.mpr (hall text hl)
      | _ => cases hcomment
  rw [hcomments]
  simp only [mem_comments_genProgram hgen]
  constructor
  · rintro hall f hf name ⟨i, x, hx, helided, hname⟩
    exact x.staysComment_text.mp (hall x.text ⟨f, hf, i, x, hx, helided, rfl⟩) name hname
  · rintro hall text ⟨f, hf, i, x, hx, helided, rfl⟩
    exact x.staysComment_text.mpr fun name hname => hall f hf name ⟨i, x, hx, helided, hname⟩

/-- Comments change neither whether a program compiles nor why it does not. -/
theorem withoutComments_eq_iff_names (p : Code.Program) :
    (∀ e, assemble { comments := true } p = .error e ↔ assemble { comments := false } p = .error e) ∧
      ∀ on off, assemble { comments := true } p = .ok on → assemble { comments := false } p = .ok off →
        (Text.withoutComments on = Text.withoutComments off ↔
          ∀ f ∈ p.funcs, ∀ name, f.Shows name → Text.StaysComment name.toList) := by
  have hgen : genProgram { comments := false } p = (genProgram { comments := true } p).map uncommented :=
    @genProgram_uncommented {} p
  unfold assemble
  rw [hgen]
  cases hon : genProgram { comments := true } p with
  | error e => exact ⟨fun _ => Iff.rfl, by rintro _ _ ⟨⟩⟩
  | ok ls =>
    refine ⟨fun e => iff_of_false (by rintro ⟨⟩) (by rintro ⟨⟩), ?_⟩
    rintro _ _ ⟨⟩ ⟨⟩
    exact @withoutComments_render p {} ls hon

/-- A function that returns its parameter, behind a string with a line break. -/
def returning (param : String) : Code.Program :=
  ⟨[], [⟨"f", [⟨some (.var param), .number⟩],
    [⟨.move, some (.temp ⟨0, .str⟩), some (.const (.str (Bytes.ofString "x\ny"))), none⟩,
      ⟨.load, some (.temp ⟨1, .number⟩), some (.var param), none⟩,
      ⟨.ret, none, some (.temp ⟨1, .number⟩), none⟩],
    .number, true, false⟩]⟩

theorem shows_returning {param name : String} {f : Func} (hf : f ∈ (returning param).funcs) :
    f.Shows name → name = param := by
  rw [returning, List.mem_singleton] at hf
  subst hf
  rintro ⟨i, x, hx, _, hname⟩
  have hmem := List.mem_of_getElem? hx
  simp only [List.mem_cons, List.not_mem_nil, or_false] at hmem
  rcases hmem with rfl | rfl | rfl
  all_goals
    simp [Code.Instr.names, Code.Instr.listed, Code.Instr.operands, Code.Operand.name?] at hname
  exact hname.symm

/-- A name whose second line is a comment line too does no harm, and neither does the string. -/
theorem withoutComments_returning_tabbed :
    ∃ on off, assemble { comments := true } (returning "a\n\t; b") = .ok on ∧
      assemble { comments := false } (returning "a\n\t; b") = .ok off ∧
        Text.withoutComments on = Text.withoutComments off := by
  have hon : (assemble { comments := true } (returning "a\n\t; b")).toOption.isSome = true := by decide +kernel
  have hoff : (assemble { comments := false } (returning "a\n\t; b")).toOption.isSome = true := by decide +kernel
  obtain ⟨on, hon⟩ : ∃ on, _ = Except.ok on := ⟨_, eq_ok_of_isSome (a := "") hon⟩
  obtain ⟨off, hoff⟩ : ∃ off, _ = Except.ok off := ⟨_, eq_ok_of_isSome (a := "") hoff⟩
  refine ⟨on, off, hon, hoff, ((withoutComments_eq_iff_names _).2 on off hon hoff).mpr fun f hf name hname => ?_⟩
  rw [shows_returning hf hname, show "a\n\t; b".toList = ['a', '\n', '\t', ';', ' ', 'b'] by decide]
  simp [Text.staysComment_cons, Text.staysComment_of_not_mem]

/-- What follows the line break in the name of a parameter is no part of the comment. -/
theorem withoutComments_returning_broken :
    ∃ on off, assemble { comments := true } (returning "a\nb") = .ok on ∧
      assemble { comments := false } (returning "a\nb") = .ok off ∧
        Text.withoutComments on ≠ Text.withoutComments off := by
  have hgen : (genProgram { comments := true } (returning "a\nb")).toOption.isSome = true := by decide +kernel
  obtain ⟨ls, hon⟩ : ∃ ls, _ = Except.ok ls := ⟨_, eq_ok_of_isSome (a := []) hgen⟩
  have hoff : genProgram { comments := false } (returning "a\nb") = .ok (uncommented ls) :=
    (@genProgram_uncommented {} _).trans (congrArg _ hon)
  refine ⟨render ls, render (uncommented ls), by rw [assemble, hon]; rfl, by rw [assemble, hoff]; rfl,
    fun heq => ?_⟩
  have hshown : ∀ f ∈ (returning "a\nb").funcs, f.Shows "a\nb" := by
    rw [returning, List.forall_mem_singleton]
    refine ⟨1, _, rfl, ?_, by decide⟩
    rintro ⟨_, _, _, _, _, hload, _, _, hop, _⟩
    cases hload
    cases hop
  have hstays := (@withoutComments_render _ {} ls hon).mp heq _ List.mem_cons_self _ (hshown _ List.mem_cons_self)
  exact absurd (hstays ['a'] ['b'] (by decide)) (by decide)

end TreeCompiler.Asm
