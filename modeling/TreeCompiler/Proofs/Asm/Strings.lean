import TreeCompiler.Pipeline
import TreeCompiler.Proofs.Asm.References
import TreeCompiler.Proofs.Distinct
import TreeCompiler.Proofs.Lower.Literals

/-!
The strings of an assembly text. They are the texts among the literals of the program, each once and
in the order in which they first occur, and every string that is loaded is the one its instruction
names.
-/

namespace TreeCompiler

/-- The text of a value that is one. -/
def Code.Const.text? : Const → Option Bytes
  | .str s => some s
  | _ => none

namespace Asm

open Code

namespace StringTable

variable {t : StringTable}

theorem toList_intern (t : StringTable) (s : Bytes) :
    (t.intern s).2.strings.toList = if s ∈ t.strings.toList then t.strings.toList else t.strings.toList ++ [s] := by
  by_cases hs : s ∈ t.strings
  · rw [intern_of_mem hs, if_pos (Array.mem_toList_iff.mpr hs)]
  · rw [if_neg (mt Array.mem_toList_iff.mp hs), intern, Array.idxOf?_eq_none_iff.mpr hs, Array.toList_push]

/-- Adding values to the table of some texts gives the table of these texts and those of the values. -/
theorem toList_foldl_addConst {ks : List Const} {seen : List Bytes} (ht : t.strings.toList = seen.eraseDups) :
    (ks.foldl addConst t).strings.toList = (seen ++ ks.filterMap Const.text?).eraseDups := by
  induction ks generalizing t seen with
  | nil => simpa using ht
  | cons k ks ih =>
    rw [List.foldl_cons]
    cases k with
    | str s =>
      rw [List.filterMap_cons_some (show Const.text? (.str s) = some s from rfl), List.append_cons]
      refine ih ?_
      rw [addConst, toList_intern, ht, eraseDups_concat]
      simp only [List.mem_eraseDups]
    | _ =>
      rw [List.filterMap_cons_none rfl]
      exact ih ht

/-- Operands whose texts are known add nothing. -/
theorem foldl_addOperand_of_mem {os : List (Option Operand)}
    (hos : ∀ s, some (.const (.str s)) ∈ os → s ∈ t.strings) : os.foldl addOperand t = t := by
  induction os with
  | nil => rfl
  | cons o os ih =>
    have hfirst : t.addOperand o = t := by
      cases o with
      | none => rfl
      | some o =>
        cases o with
        | const k =>
          cases k with
          | str s => exact intern_of_mem (hos s List.mem_cons_self)
          | _ => rfl
        | _ => rfl
    rw [List.foldl_cons, hfirst]
    exact ih fun s hs => hos s (List.mem_cons_of_mem _ hs)

/-- The table of a program whose code uses pooled texts only holds the texts of the pool. -/
theorem toList_ofProgram {p : Code.Program} (hp : ∀ f ∈ p.funcs, ∀ x ∈ f.code, Lower.TextsIn p.consts x) :
    (ofProgram p).strings.toList = (p.consts.filterMap Const.text?).eraseDups := by
  have hempty : ({} : StringTable).strings.toList = ([] : List Bytes).eraseDups := rfl
  have hpooled : (p.consts.foldl addConst {}).strings.toList = (p.consts.filterMap Const.text?).eraseDups := by
    rw [toList_foldl_addConst hempty, List.nil_append]
  rw [ofProgram, foldl_addOperand_of_mem, hpooled]
  intro s hs
  obtain ⟨x, hx, hs⟩ := List.mem_flatMap.mp hs
  obtain ⟨f, hf, hx⟩ := List.mem_flatMap.mp hx
  rw [← Array.mem_toList_iff, hpooled, List.mem_eraseDups, List.mem_filterMap]
  exact ⟨_, (hp f hf x hx s hs).2.2, rfl⟩

end StringTable

/-- What an instruction loads by a number is a text of some kind that has this number in a table. -/
def Insn.Spells (strings : StringTable) (T : Bytes → Prop) : Insn → Prop
  | .leaString _ k => ∃ s, T s ∧ strings.strings[k]? = some s
  | _ => True

theorem admits_spells {strings : StringTable} {T : Bytes → Prop} (hT : ∀ s, T s → s ∈ strings.strings) :
    Admits strings T (fun _ => False) (Insn.Spells strings T) where
  nameless y hy := by
    cases y with
    | leaString r k => cases hy
    | _ => trivial
  listed := hT
  handed _ hfalse := hfalse.elim
  loads _ _ s hs hk := ⟨s, hs, hk⟩

/-- The lines that an instruction becomes. -/
structure Piece (options : Options) (site : Site) (texts : List Bytes) (x : Instr) (ls : List Line) : Prop where
  compiled : ls = [] ∨ ∃ i g r g', genInstr site i x g = .ok (r, g') ∧ ls = announcement options x ++ r.1
  loads : ∀ r k, .insn (.leaString r k) ∈ ls →
    ∃ s, x.op = .move ∧ x.src1 = some (.const (.str s)) ∧ texts[k]? = some s

section Functions

variable {options : Options}

variable {strings : StringTable} {ks : List Const} {ls : List Line}

/-- The code of a function falls into the pieces of its instructions. -/
theorem genCode_pieces {site : Site} {code : List Instr}
    (hks : ∀ s, .str s ∈ ks → s ∈ strings.strings) (hcode : ∀ x ∈ code, Lower.TextsIn ks x) {index : Nat}
    {covered : Bool} {g g' : GenState} (hg : g.strings = strings)
    (hpending : TextsAre (fun _ => False) g.pending.toList)
    (hgen : genCode options site index covered code g = .ok (ls, g')) :
    g'.strings = strings ∧
      ∃ pieces, ls = pieces.flatten ∧ List.Forall₂ (Piece options site strings.strings.toList) code pieces := by
  induction code generalizing index covered g ls with
  | nil =>
    obtain ⟨rfl, rfl⟩ := GenM.pure_eq_ok_iff.mp hgen
    exact ⟨hg, [], rfl, .nil⟩
  | cons x code ih =>
    have hrest : ∀ y ∈ code, Lower.TextsIn ks y := fun y hy => hcode y (List.mem_cons_of_mem _ hy)
    unfold genCode at hgen
    split at hgen
    · obtain ⟨hstrings, pieces, rfl, hpieces⟩ := ih hrest hg hpending hgen
      exact ⟨hstrings, [] :: pieces, rfl, .cons ⟨.inl rfl, by simp⟩ hpieces⟩
    · simp only [GenM.bind_eq_ok_iff, GenM.within_eq_ok_iff, GenM.pure_eq_ok_iff] at hgen
      obtain ⟨⟨own, covered'⟩, g₁, hinstr, rest, _, hgen, rfl, rfl⟩ := hgen
      have htexts := hcode x List.mem_cons_self
      have harg : x.op = .arg → ∀ s, x.src1 = some (.const (.str s)) → False := by
        intro hop s hs
        have hmove := (htexts s (by simp [Instr.operands, hs])).1
        rw [hop] at hmove
        cases hmove
      have hspells : Admits strings (fun s => (x.op = .move ∧ x.src1 = some (.const (.str s))) ∧
          s ∈ strings.strings)
        (fun _ => False) _ := admits_spells fun s hs => hs.2
      obtain ⟨hloads, hg₁, hpending₁⟩ := hspells.genInstr trivial trivial (fun _ _ => ⟨trivial, trivial⟩)
        (fun _ _ _ => trivial) (fun s hs => ⟨⟨(htexts s hs).1, (htexts s hs).2.1⟩, hks s (htexts s hs).2.2⟩)
        harg g _ g₁ hg hpending hinstr
      obtain ⟨hstrings, pieces, rfl, hpieces⟩ := ih hrest hg₁ hpending₁ hgen
      refine ⟨hstrings, (announcement options x ++ own) :: pieces, rfl,
        .cons ⟨.inr ⟨index, g, _, g₁, hinstr, rfl⟩, fun r k hmem => ?_⟩ hpieces⟩
      have hown : .insn (.leaString r k) ∈ own := by
        refine (List.mem_append.mp hmem).resolve_left fun hannounced => ?_
        unfold announcement at hannounced
        split at hannounced <;> simp at hannounced
      obtain ⟨s, ⟨⟨hop, hsrc⟩, _⟩, hk⟩ := hloads _ hown
      exact ⟨s, hop, hsrc, Array.getElem?_toList ▸ hk⟩

/-- The lines of a function with code, in pieces. -/
structure Pieces (options : Options) (f : Func) (strings : StringTable) (own : List Line) : Prop where
  kept : genFunc options f strings = .ok (own, strings)
  lines : ∃ site params pieces, site.func = f ∧ own = funcLines f site.frame params pieces.flatten ∧
    (∀ r k, .leaString r k ∉ params) ∧ List.Forall₂ (Piece options site strings.strings.toList) f.code pieces

theorem genFunc_pieces {f : Func} {strings' : StringTable} {own : List Line}
    (hks : ∀ s, .str s ∈ ks → s ∈ strings.strings) (hcode : ∀ x ∈ f.code, Lower.TextsIn ks x)
    (hgen : genFunc options f strings = .ok (own, strings')) : strings' = strings ∧ Pieces options f strings own := by
  obtain ⟨frame, labels, params, g₁, body, g₂, _, _, hparams, hbody, rfl, rfl⟩ := genFunc_eq_ok_iff.mp hgen
  have hspells : Admits strings (fun _ => False) (fun _ => False) _ := admits_spells fun _ hfalse => hfalse.elim
  obtain ⟨hmute, hg₁, hpending⟩ := hspells.bindParams _ params g₁ rfl (by simp [TextsAre]) hparams
  obtain ⟨hg₂, pieces, rfl, hpieces⟩ := genCode_pieces hks hcode hg₁ hpending hbody
  refine ⟨hg₂, hg₂ ▸ hgen, ⟨f, frame, labels⟩, params, pieces, rfl, rfl, fun r k hmem => ?_, hpieces⟩
  obtain ⟨_, hfalse, _⟩ := hmute _ hmem
  exact hfalse

/-- The lines of functions, one after another. -/
theorem genFuncs_pieces {fs : List Func}
    (hks : ∀ s, .str s ∈ ks → s ∈ strings.strings) (hcode : ∀ f ∈ fs, ∀ x ∈ f.code, Lower.TextsIn ks x)
    (hgen : genFuncs options strings fs = .ok ls) :
    ∃ owns, ls = owns.flatMap (Line.blank :: ·) ∧ List.Forall₂ (fun f own => f.isExternal = true ∧
      own = [.external f.name] ∨ f.isExternal = false ∧ Pieces options f strings own) fs owns := by
  induction fs generalizing ls with
  | nil =>
    cases hgen
    exact ⟨[], rfl, .nil⟩
  | cons f fs ih =>
    obtain ⟨own, strings', rest, hone, hrest, rfl⟩ := genFuncs_cons_eq_ok_iff.mp hgen
    have hfirst : strings' = strings ∧ (f.isExternal = true ∧ own = [.external f.name] ∨
        f.isExternal = false ∧ Pieces options f strings own) := by
      rcases hone with ⟨hexternal, _, hown, hstrings⟩ | ⟨hinternal, hfunc⟩
      · exact ⟨hstrings, .inl ⟨hexternal, hown⟩⟩
      · obtain ⟨hstrings, hpieces⟩ := genFunc_pieces hks (hcode f List.mem_cons_self) hfunc
        exact ⟨hstrings, .inr ⟨hinternal, hpieces⟩⟩
    obtain ⟨rfl, hown⟩ := hfirst
    obtain ⟨owns, rfl, howns⟩ := ih (fun f hf => hcode f (List.mem_cons_of_mem _ hf)) hrest
    exact ⟨own :: owns, rfl, .cons hown howns⟩

end Functions

/-- The literals of a program reach its assembly text. -/
theorem literals_reach_data {options : Options} {prog : Tree.Program} {text : String}
    (hbuild : buildAssembly options prog = .ok text) :
    ∃ p owns, buildCode prog = .ok p ∧ p.consts = prog.constants ∧
      (StringTable.ofProgram p).strings.toList = (prog.constants.filterMap Const.text?).eraseDups ∧
        text = render ([.segment ".data"] ++
          (prog.constants.filterMap Const.text?).eraseDups.mapIdx (fun k s => .string k s) ++
            [.blank, .segment ".text"] ++ owns.flatMap (Line.blank :: ·)) ∧
          List.Forall₂ (fun f own => f.isExternal = true ∧ own = [.external f.name] ∨
            f.isExternal = false ∧ Pieces options f (StringTable.ofProgram p) own) p.funcs owns := by
  obtain ⟨p, hcode, hassemble⟩ := bind_eq_ok_iff.mp hbuild
  obtain ⟨lines, hgen, rfl⟩ := map_eq_ok_iff.mp (mapError_eq_ok_iff.mp hassemble)
  obtain ⟨ls, hfuncs, hlines⟩ := bind_eq_ok_iff.mp hgen
  cases hlines
  obtain ⟨hlower, _⟩ := buildCode_ok hcode
  obtain ⟨hconsts, htexts⟩ := Lower.lowerProgram_pools hlower
  have htable := StringTable.toList_ofProgram htexts
  have hks : ∀ s, .str s ∈ p.consts → s ∈ (StringTable.ofProgram p).strings := by
    intro s hs
    rw [← Array.mem_toList_iff, htable, List.mem_eraseDups, List.mem_filterMap]
    exact ⟨_, hs, rfl⟩
  obtain ⟨owns, rfl, howns⟩ := genFuncs_pieces hks htexts hfuncs
  rw [hconsts] at htable
  refine ⟨p, owns, hcode, hconsts, htable, ?_, howns⟩
  rw [StringTable.lines, htable]

/-- A program that names three texts, two of them twice. -/
def refrain : Tree.Program :=
  ⟨[.literal (.str (Bytes.ofString "la")), .literal (.number 1),
    .func ⟨"puts", [⟨"s", .str⟩], .number, false, true⟩ .missing,
    .func ⟨"main", [], .number, true, false⟩ (.block [.call "puts" [.literal (.str (Bytes.ofString "li"))],
      .call "puts" [.literal (.str (Bytes.ofString "la"))], .call "puts" [.literal (.str (Bytes.ofString "li"))],
        .ret (.literal (.number 1))])]⟩

/-- The numbers stay in the pool, and the data defines the two texts. -/
theorem refrain_reaches_data : ∃ text p owns, buildAssembly {} refrain = .ok text ∧ buildCode refrain = .ok p ∧
    p.consts = [.str (Bytes.ofString "la"), .int 1, .str (Bytes.ofString "li"), .str (Bytes.ofString "la"),
      .str (Bytes.ofString "li"), .int 1] ∧
      text = render ([.segment ".data", .string 0 (Bytes.ofString "la"), .string 1 (Bytes.ofString "li"), .blank,
        .segment ".text"] ++ owns.flatMap (Line.blank :: ·)) ∧
        List.Forall₂ (fun f own => f.isExternal = true ∧ own = [.external f.name] ∨
          f.isExternal = false ∧ Pieces {} f (StringTable.ofProgram p) own) p.funcs owns := by
  have hsome : (buildAssembly {} refrain).toOption.isSome = true := by decide +kernel
  obtain ⟨text, htext⟩ := Option.isSome_iff_exists.mp hsome
  obtain ⟨p, owns, hcode, hconsts, _, hrender, howns⟩ := literals_reach_data (eq_ok_of_toOption htext)
  have hall : refrain.constants = [.str (Bytes.ofString "la"), .int 1, .str (Bytes.ofString "li"),
      .str (Bytes.ofString "la"), .str (Bytes.ofString "li"), .int 1] := by decide +kernel
  have htexts : (refrain.constants.filterMap Const.text?).eraseDups =
      [Bytes.ofString "la", Bytes.ofString "li"] := by decide +kernel
  rw [htexts] at hrender
  exact ⟨text, p, owns, eq_ok_of_toOption htext, hcode, hconsts.trans hall, hrender, howns⟩

end Asm

end TreeCompiler
