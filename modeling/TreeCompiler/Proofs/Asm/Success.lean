import TreeCompiler.Proofs.Asm.Generation
import TreeCompiler.Proofs.Asm.Slots
import TreeCompiler.Proofs.Lower.Program

namespace TreeCompiler.Asm

open Code

/-- Whatever a computation returns has a property. -/
def GenM.Gives {α : Type} (m : GenM α) (P : α → Prop) : Prop :=
  ∀ g a g', m g = .ok (a, g') → P a

namespace GenM.Gives

variable {α β : Type} {m : GenM α} {P : α → Prop}

theorem bind {f : α → GenM β} {Q : β → Prop} (hm : Gives m P) (hf : ∀ a, P a → Gives (f a) Q) :
    Gives (m >>= f) Q := by
  intro g b g' hrun
  obtain ⟨a, g₁, hma, hfa⟩ := GenM.bind_eq_ok_iff.mp hrun
  exact hf a (hm g a g₁ hma) g₁ b g' hfa

theorem any : Gives m fun _ => True :=
  fun _ _ _ _ => trivial

theorem pure {a : α} (ha : P a) : Gives (Pure.pure a) P := by
  intro g b g' hrun
  obtain ⟨rfl, rfl⟩ := GenM.pure_eq_ok_iff.mp hrun
  exact ha

theorem fail {cause : Cause} : Gives (GenM.fail cause) P :=
  fun g _ _ hrun => (GenM.fail_ne_ok g hrun).elim

theorem within {place : Place} (hm : Gives m P) : Gives (GenM.within place m) P :=
  fun g a g' hrun => hm g a g' (GenM.within_eq_ok_iff.mp hrun)

end GenM.Gives

/-- Each of some instructions has a property. -/
def Each (Q : Insn → Prop) (xs : List Insn) : Prop :=
  ∀ x ∈ xs, Q x

/-- An instruction that brings a literal or what another register or a slot holds into a register. -/
inductive Insn.Loads (frame : Frame) (r : Reg) : Insn → Prop where
  | mov (other : Reg) : Loads frame r (.mov r other)
  | const (v : Int) : Loads frame r (.movConst r v)
  | string (k : Nat) : Loads frame r (.leaString r k)
  | slot {o : Operand} {offset : Int} (ho : frame.offset? o = some offset) : Loads frame r (.load r (.frame offset))

section Each

variable {site : Site} {Q : Insn → Prop} {x : Insn} {xs ys : List Insn} {r : Reg} {i : Nat}

theorem Each.nil : Each Q [] :=
  List.forall_mem_nil _

theorem Each.one (hx : Q x) : Each Q [x] :=
  List.forall_mem_singleton.mpr hx

theorem Each.append (hxs : Each Q xs) (hys : Each Q ys) : Each Q (xs ++ ys) :=
  List.forall_mem_append.mpr ⟨hxs, hys⟩

theorem load_each {src : Option Operand} (hload : ∀ x : Insn, x.Loads site.frame r → Q x) :
    (load site src r).Gives (Each Q) := by
  intro g xs g' hrun
  obtain ⟨o, _, hloaded⟩ := load_ok hrun
  cases hloaded with
  | hit => exact .nil
  | move other => exact .one (hload _ (.mov other))
  | fetch hfetch =>
    cases hfetch with
    | str => exact .one (hload _ (.string _))
    | slot _ _ hoffset => exact .one (hload _ (.slot hoffset))
    | _ => exact .one (hload _ (.const _))

theorem loadRegArgs_each {args : List (Option Operand)} {regs : List Reg}
    (hload : ∀ r ∈ regs, ∀ x : Insn, x.Loads site.frame r → Q x) :
    (loadRegArgs site i args regs).Gives (Each Q) := by
  induction args generalizing i regs with
  | nil => exact .pure .nil
  | cons a args ih =>
    cases regs with
    | nil => exact .pure .nil
    | cons r regs =>
      exact .bind (.within (load_each (hload r (by simp)))) fun _ hcode =>
        .bind (ih fun r hr => hload r (by simp [hr])) fun _ hrest => .pure (hcode.append hrest)

theorem overwriteArgs_each {args : List (Nat × Option Operand)} (hload : ∀ x : Insn, x.Loads site.frame .rax → Q x)
    (hstore : ∀ a ∈ args, Q (.store (.frame (stackArg a.1)) .rax)) : (overwriteArgs site args).Gives (Each Q) := by
  induction args with
  | nil => exact .pure .nil
  | cons a args ih =>
    exact .bind (.within (load_each hload)) fun _ hcode => .bind (ih fun a ha => hstore a (by simp [ha])) fun _ hrest =>
      .pure ((hcode.append (.one (hstore a (by simp)))).append hrest)

theorem bindParams_each {os : List (Option Operand)}
    (hload : ∀ j, 6 ≤ j → j < i + os.length → Q (.load .rax (.frame (stackArg j))))
    (hstore : ∀ o offset r, site.frame.offset? o = some offset → Q (.store (.frame offset) r)) :
    (bindParams site i os (Reg.args.drop i)).Gives (Each Q) := by
  induction os generalizing i with
  | nil => exact .pure .nil
  | cons o os ih =>
    have hrest := ih (i := i + 1) fun j hj hlt => hload j hj (by simp only [List.length_cons]; omega)
    unfold bindParams
    split
    · next _ p offset hoffset =>
      have hslot (r : Reg) : Q (.store (.frame offset) r) := hstore p offset r (by simpa using hoffset)
      cases hregs : Reg.args.drop i with
      | cons r regs =>
        rw [← List.tail_drop, hregs, List.tail_cons] at hrest
        exact .bind .any fun _ _ => .bind hrest fun _ hrest => .pure (.append (.one (hslot r)) hrest)
      | nil =>
        have hi : 6 ≤ i := List.drop_eq_nil_iff.mp hregs
        rw [← List.tail_drop, hregs, List.tail_nil] at hrest
        exact .bind .any fun _ _ => .bind hrest fun _ hrest =>
          .pure (.append (.append (.one (hload i hi (by simp))) (.one (hslot .rax))) hrest)
    · exact .fail

end Each

section Results

variable {site : Site} {x : Instr} {i : Nat}

/-- What an instruction becomes: machine instructions, or a mark if it places a label. -/
structure Compiled (site : Site) (i : Nat) (x : Instr) (r : List Line × Bool) : Prop where
  lines : (∃ xs : List Insn, r.1 = xs.map .insn) ∨ ∃ name, x.label? = some name ∧ r.1 = [.mark name]
  filled : r.1 ≠ [] ∨ x.op = .nop ∨ x.op = .arg ∨ x.op = .ret
  covered : r.2 = true ↔
    x.op = .call ∧ x.src1 = some (.func site.func.name) ∧ returnsNext site i x.dst = true

theorem Compiled.plain (hop : x.op ≠ .call) {xs : List Insn}
    (hxs : xs ≠ [] ∨ x.op = .nop ∨ x.op = .arg ∨ x.op = .ret) : Compiled site i x (xs.map .insn, false) :=
  ⟨.inl ⟨xs, rfl⟩, by simpa using hxs, iff_of_false Bool.false_ne_true fun hcovered => hop hcovered.1⟩

theorem isTailCall_of_returnsNext {result : Option Operand} (hnext : returnsNext site i result = true) :
    isTailCall site i result = true := by
  unfold returnsNext at hnext
  split at hnext
  · next y hy =>
    obtain ⟨hop, hsrc⟩ := of_decide_eq_true hnext
    simp [isTailCall, flowsToReturn, hy, hop, hsrc]
  · cases hnext

variable {dst : Option Operand} {name : String}

theorem store_gives {r : Reg} : (store site dst r).Gives (· ≠ []) := by
  intro g xs g₁ hstore
  obtain ⟨_, _, _, _, rfl, _⟩ := store_ok hstore
  simp

theorem tailJump_gives_insns {args : List (Option Operand)} : (tailJump site args).Gives (· ≠ []) := by
  unfold tailJump
  split
  · exact .fail
  · exact .bind .any fun _ _ => .bind .any fun _ _ => .bind .any fun _ _ => .pure (by simp)

theorem plainCall_gives_insns {args : List (Option Operand)} :
    (plainCall site name args dst).Gives (· ≠ []) := by
  refine .bind .any fun _ _ => .bind .any fun _ _ => .bind .any fun _ _ => ?_
  dsimp only
  split <;> exact .bind .any fun _ _ => .pure (by simp)

theorem genCall_gives : (genCall site i x).Gives fun r => r.1 ≠ [] ∧
    (r.2 = true ↔ x.src1 = some (.func site.func.name) ∧ returnsNext site i x.dst = true) := by
  unfold genCall
  split
  · next name hsrc =>
    refine .bind .any fun g _ => ?_
    dsimp only
    split
    · refine .bind .any fun args _ => ?_
      split
      · next htail => exact .bind tailJump_gives_insns fun _ hcode => .pure ⟨hcode, by simp [hsrc, htail.1]⟩
      · next htail =>
        refine .bind plainCall_gives_insns fun _ hcode => .pure ⟨hcode, iff_of_false Bool.false_ne_true ?_⟩
        rintro ⟨hself, hnext⟩
        refine htail ⟨?_, ?_⟩
        · rw [hsrc] at hself
          cases hself
          rfl
        · exact isTailCall_of_returnsNext hnext
    · exact .fail
  · exact .fail

theorem genInstr_gives : (genInstr site i x).Gives (Compiled site i x) := by
  unfold genInstr
  dsimp only
  cases hop : x.op <;> dsimp only
  case call =>
    refine .bind genCall_gives fun r hr => .pure ⟨.inl ⟨_, rfl⟩, .inl (by simpa using hr.1), ?_⟩
    simpa only [hop, true_and] using hr.2
  case unknown => exact .fail
  all_goals
    have hplain (xs : List Insn) (hxs : xs ≠ [] ∨ x.op = .nop ∨ x.op = .arg ∨ x.op = .ret) :
        Compiled site i x (xs.map .insn, false) := .plain (by simp [hop]) hxs
  case nop => exact .pure (hplain [] (.inr (.inl hop)))
  case binary op =>
    exact .bind .any fun _ _ => .bind .any fun _ _ => .pure (hplain _ (by cases op <;> simp [binaryCode]))
  case unary op => exact .bind .any fun _ _ => .bind .any fun _ _ => .pure (hplain _ (by cases op <;> simp [unaryCode]))
  case setIndex =>
    refine .bind (P := (· ≠ [])) ?_ fun _ hcode => .pure (hplain _ (.inl hcode))
    exact .bind .any fun _ _ => .bind .any fun _ _ => .pure (by simp)
  case array =>
    refine .bind (P := (· ≠ [])) (.bind .any fun g _ => ?_) fun _ hcode => .pure (hplain _ (.inl hcode))
    dsimp only
    split
    · exact .bind .any fun _ _ => .bind .any fun _ _ => .bind .any fun _ _ => .pure (by simp)
    · exact .fail
  case arg => exact .bind .any fun _ _ => .pure (hplain [] (.inr (.inr (.inl hop))))
  case label =>
    split
    · next name hdst =>
      exact .bind .any fun _ _ => .pure ⟨.inr ⟨name, by simp only [Instr.label?, hop, hdst], rfl⟩, .inl (by simp),
        by simp [hop]⟩
    · exact .fail
  case jump =>
    split
    · exact .pure (hplain _ (.inl (by simp)))
    · exact .fail
  case jumpIfFalse =>
    split
    · exact .bind .any fun _ _ => .pure (hplain _ (.inl (by simp)))
    · exact .fail
  case ret => split <;> exact .bind .any fun _ _ => .pure (hplain _ (.inr (.inr (.inr hop))))
  case move | load | store =>
    exact .bind .any fun _ _ => .bind store_gives fun _ hkeep => .pure (hplain _ (.inl (by simp [hkeep])))
  all_goals exact .bind .any fun _ _ => .bind .any fun _ _ => .pure (hplain _ (.inl (by simp [compareCode])))

/-- A label becomes a mark, behind which nothing is known of the registers. -/
theorem genInstr_label {code : List Line} {covered : Bool} {g g' : GenState}
    (hlabel : x.label? = some name) (hgen : genInstr site i x g = .ok ((code, covered), g')) :
    code = [.mark name] ∧ covered = false ∧ g' = { g with cache := .empty } := by
  obtain ⟨hop, hdst⟩ := Instr.label?_eq_some_iff.mp hlabel
  simp only [genInstr, hop, hdst, GenM.bind_eq_ok_iff, GenM.pure_eq_ok_iff, GenM.forget_eq_ok_iff,
    Prod.mk.injEq] at hgen
  obtain ⟨_, _, rfl, ⟨rfl, rfl⟩, rfl⟩ := hgen
  exact ⟨rfl, rfl, rfl⟩

end Results

/-- A computation succeeds with a result and a state that have a property. -/
def GenM.Returns {α : Type} (m : GenM α) (g : GenState) (Q : α → GenState → Prop) : Prop :=
  ∃ a g', m g = .ok (a, g') ∧ Q a g'

namespace GenM.Returns

variable {α β : Type} {m : GenM α} {g : GenState} {Q : α → GenState → Prop}

theorem bind {f : α → GenM β} {R : β → GenState → Prop}
    (hm : Returns m g fun a g' => Returns (f a) g' R) : Returns (m >>= f) g R := by
  obtain ⟨a, g₁, hma, b, g₂, hfb, hR⟩ := hm
  exact ⟨b, g₂, GenM.bind_eq_ok_iff.mpr ⟨a, g₁, hma, hfb⟩, hR⟩

theorem pure {a : α} (hQ : Q a g) : Returns (Pure.pure a) g Q :=
  ⟨a, g, rfl, hQ⟩

theorem mono {R : α → GenState → Prop} (hm : Returns m g Q) (himp : ∀ a g', Q a g' → R a g') :
    Returns m g R := by
  obtain ⟨a, g', hma, hQ⟩ := hm
  exact ⟨a, g', hma, himp a g' hQ⟩

theorem within {place : Place} (hm : Returns m g Q) : Returns (GenM.within place m) g Q := by
  obtain ⟨a, g', hma, hQ⟩ := hm
  exact ⟨a, g', GenM.within_eq_ok_iff.mpr hma, hQ⟩

end GenM.Returns

theorem GenState.Keeps.refl (g : GenState) : g.Keeps g :=
  ⟨rfl, rfl⟩

/-- With the strings of a table, a computation succeeds and leaves all as it was but what the registers
    hold. -/
def GenM.Succeeds {α : Type} (m : GenM α) (strings : StringTable) : Prop :=
  ∀ g, g.strings = strings → m.Returns g fun _ g' => g.Keeps g'

namespace GenM.Succeeds

variable {α β : Type} {m : GenM α} {f : α → GenM β} {strings : StringTable}

theorem bind (hm : m.Succeeds strings) (hf : ∀ a, (f a).Succeeds strings) : (m >>= f).Succeeds strings :=
  fun g hg => .bind ((hm g hg).mono fun a g₁ hkeeps =>
    (hf a g₁ (hkeeps.strings.trans hg)).mono fun _ _ hkeeps' => hkeeps.trans hkeeps')

theorem pure {a : α} : (Pure.pure a : GenM α).Succeeds strings :=
  fun g _ => .pure (.refl g)

theorem track {change : Cache → Cache} : (GenM.track change).Succeeds strings :=
  fun _ _ => ⟨(), _, rfl, rfl, rfl⟩

theorem within {place : Place} (hm : m.Succeeds strings) : (GenM.within place m).Succeeds strings :=
  fun g hg => (hm g hg).within

end GenM.Succeeds

/-- Every operand of a function can be handled: places have slots, strings are in the table, and
    nothing is improper. -/
structure Site.Complete (site : Site) (strings : StringTable) : Prop where
  slots : ∀ o, some o ∈ site.func.operands → Operand.isStorage (some o) = true →
    ∃ offset, site.frame.offset? o = some offset
  proper : ∀ o, some o ∈ site.func.operands → o.Proper
  strings : ∀ t, some (.const (.str t)) ∈ site.func.operands → t ∈ strings.strings

/-- An operand of a function that can be read. -/
def Site.Readable (site : Site) (a : Option Operand) : Prop :=
  a ∈ site.func.operands ∧ Operand.isValue a = true

variable {site : Site} {strings : StringTable} {g : GenState} {a : Option Operand} {r : Reg}

/-- An operand can be brought into a register: it has a slot, or it is a literal of a kind that is
    known, and if the literal is a string, it is in the table. -/
def Frame.Offers (fr : Frame) (strings : StringTable) : Option Operand → Prop
  | none => False
  | some (.const (.str t)) => t ∈ strings.strings
  | some (.const (.unknown _)) => False
  | some (.const _) => True
  | some o => ∃ offset, fr.offset? o = some offset

theorem Site.Complete.offers (hcomplete : site.Complete strings) (ha : site.Readable a) :
    site.frame.Offers strings a := by
  obtain ⟨hmem, hvalue⟩ := ha
  cases a with
  | none => cases hvalue
  | some o =>
    cases o with
    | const c =>
      cases c with
      | str t => exact hcomplete.strings t hmem
      | unknown kind => exact hcomplete.proper _ hmem kind rfl
      | _ => trivial
    | temp t => exact hcomplete.slots _ hmem rfl
    | var name => exact hcomplete.slots _ hmem rfl
    | label name => cases hvalue
    | func name => cases hvalue

variable {o : Operand} {regs : List Reg} {g' : GenState} {code : List Instr} {os : List (Option Operand)}

theorem fetch_succeeds (ho : site.frame.Offers strings (some o)) : (fetch site o r).Succeeds strings := by
  cases o with
  | const c =>
    cases c with
    | unknown kind => exact ho.elim
    | str t =>
      rintro g rfl
      exact ⟨_, _, rfl, rfl, StringTable.intern_of_mem ho⟩
    | _ => exact .pure
  | label name => simp [Frame.Offers, Frame.offset?, Frame.slot?] at ho
  | func name => simp [Frame.Offers, Frame.offset?, Frame.slot?] at ho
  | _ =>
    obtain ⟨offset, hoffset⟩ := ho
    simp only [fetch, hoffset]
    exact .pure

theorem load_succeeds (ha : site.frame.Offers strings a) : (load site a r).Succeeds strings := by
  cases a with
  | none => exact ha.elim
  | some o =>
    intro g hg
    refine .bind ⟨g, g, rfl, ?_⟩
    dsimp only
    split
    · exact .pure (.refl g)
    · split
      · exact GenM.Succeeds.bind .pure (fun _ => .bind .track fun _ => .pure) g hg
      · exact GenM.Succeeds.bind (fetch_succeeds ha) (fun _ => .bind .track fun _ => .pure) g hg

theorem store_succeeds_of_slot {offset : Int} (hoffset : site.frame.offset? o = some offset) :
    (store site (some o) r).Succeeds strings := by
  simp only [store, hoffset]
  exact .bind .track fun _ => .pure

variable {args : List (Option Operand)} {index : Nat} {f : Func} {t : Bytes} {p : Code.Program}

theorem loadRegArgs_succeeds
    (hargs : ∀ a ∈ args, site.frame.Offers strings a) : (loadRegArgs site index args regs).Succeeds strings := by
  induction args generalizing regs index with
  | nil => cases regs <;> exact .pure
  | cons a args ih =>
    cases regs with
    | nil => exact .pure
    | cons r regs =>
      exact .bind (load_succeeds (hargs a (by simp))).within fun _ =>
        .bind (ih fun b hb => hargs b (by simp [hb])) fun _ => .pure

theorem pushArgs_succeeds {args : List (Nat × Option Operand)}
    (hargs : ∀ a ∈ args, site.frame.Offers strings a.2) :
    (pushArgs site args).Succeeds strings := by
  induction args with
  | nil => exact .pure
  | cons a args ih =>
    exact .bind (load_succeeds (hargs a (by simp))).within fun _ =>
      .bind (ih fun b hb => hargs b (by simp [hb])) fun _ => .pure

theorem overwriteArgs_succeeds {args : List (Nat × Option Operand)}
    (hargs : ∀ a ∈ args, site.frame.Offers strings a.2) : (overwriteArgs site args).Succeeds strings := by
  induction args with
  | nil => exact .pure
  | cons a args ih =>
    exact .bind (load_succeeds (hargs a (by simp))).within fun _ =>
      .bind (ih fun b hb => hargs b (by simp [hb])) fun _ => .pure

theorem storeElems_succeeds {elems : List (Option Operand)}
    (helems : ∀ a ∈ elems, site.frame.Offers strings a) : (storeElems site index elems).Succeeds strings := by
  induction elems generalizing index with
  | nil => exact .pure
  | cons a elems ih =>
    exact .bind (load_succeeds (helems a (by simp))).within fun _ =>
      .bind (ih fun b hb => helems b (by simp [hb])) fun _ => .pure

theorem mem_stackArgs {a : Nat × Option Operand} (ha : a ∈ stackArgs args) :
    a.2 ∈ args := by
  simp only [stackArgs, List.mem_mapIdx] at ha
  obtain ⟨i, hi, rfl⟩ := ha
  exact List.mem_of_mem_drop (List.getElem_mem hi)

/-- What is pending fits the code that follows and can be read. -/
structure Ready (site : Site) (arity : String → Option Nat) (code : List Instr) (g : GenState) : Prop where
  args : ArgsFit arity g.pending.size code
  readable : ∀ a ∈ g.pending, site.Readable a

variable {arity : String → Option Nat} {rest : List Instr} {x : Instr} {i : Nat}

theorem Ready.next (hready : Ready site arity (x :: rest) g) (hop : x.op.passesArgs = false)
    (hpending : g'.pending = g.pending) : Ready site arity rest g' := by
  obtain ⟨hzero, hfit⟩ := (ArgsFit.of_op hop).mp hready.args
  refine ⟨by rw [hpending, hzero]; exact hfit, fun a ha => ?_⟩
  rw [Array.size_eq_zero_iff] at hzero
  simp [hpending, hzero] at ha

theorem Ready.taken (hfit : ArgsFit arity 0 rest) (hpending : g'.pending = #[]) :
    Ready site arity rest g' := by
  refine ⟨by rw [hpending]; exact hfit, fun a ha => ?_⟩
  simp [hpending] at ha

theorem plainCall_returns {name : String} {dst : Option Operand}
    (hargs : ∀ a ∈ args, site.frame.Offers g.strings a)
    (hdst : ∀ d, dst = some d → ∃ offset, site.frame.offset? d = some offset) :
    (plainCall site name args dst).Returns g fun _ g' => g.Keeps g' := by
  suffices hcall : (plainCall site name args dst).Succeeds g.strings from hcall g rfl
  refine .bind (pushArgs_succeeds fun a ha => hargs _ (mem_stackArgs (List.mem_reverse.mp ha))) fun _ => ?_
  refine .bind (loadRegArgs_succeeds hargs) fun _ => .bind .track fun _ => ?_
  cases dst with
  | none => exact .bind .pure fun _ => .pure
  | some d =>
    obtain ⟨offset, hoffset⟩ := hdst d rfl
    exact .bind (store_succeeds_of_slot hoffset) fun _ => .pure

theorem tailJump_returns (hargs : ∀ a ∈ args, site.frame.Offers g.strings a)
    (hlength : args.length = site.func.params.length) :
    (tailJump site args).Returns g fun _ g' => g.Keeps g' := by
  suffices hjump : (tailJump site args).Succeeds g.strings from hjump g rfl
  rw [tailJump, if_neg (by simp [hlength])]
  exact .bind (overwriteArgs_succeeds fun a ha => hargs _ (mem_stackArgs ha)) fun _ =>
    .bind (loadRegArgs_succeeds hargs) fun _ => .bind .track fun _ => .pure

section Operands

variable (hcomplete : site.Complete strings)
include hcomplete

theorem src1_succeeds (hx : x ∈ site.func.code) (hvalue : Operand.isValue x.src1 = true) :
    (load site x.src1 r).Succeeds strings :=
  load_succeeds (hcomplete.offers ⟨Instr.src1_mem hx, hvalue⟩)

theorem sources_succeed (hx : x ∈ site.func.code) (hleft : Operand.isValue x.src1 = true)
    (hright : Operand.isValue x.src2 = true) : (loadPair site x.src1 x.src2).Succeeds strings :=
  .bind (src1_succeeds hcomplete hx hleft).within fun _ =>
    .bind (load_succeeds (hcomplete.offers ⟨Instr.src2_mem hx, hright⟩)).within fun _ => .pure

theorem dst_succeeds (hx : x ∈ site.func.code) (hstorage : Operand.isStorage x.dst = true) :
    (store site x.dst r).Succeeds strings := by
  have hmem := Instr.dst_mem hx
  cases hdst : x.dst with
  | none => simp [hdst, Operand.isStorage] at hstorage
  | some o =>
    rw [hdst] at hmem hstorage
    obtain ⟨offset, hoffset⟩ := hcomplete.slots o hmem hstorage
    exact store_succeeds_of_slot hoffset

end Operands

theorem ArgsFit.tail_of_ret (hfit : ArgsFit arity 0 rest) (hret : ∀ y ∈ rest.head?, y.op = .ret) :
    ArgsFit arity 0 rest.tail := by
  cases rest with
  | nil => exact hfit
  | cons y rest => exact ((ArgsFit.of_op (by rw [hret y rfl]; rfl)).mp hfit).2

section Instructions

variable (hx : x ∈ site.func.code) (hmeets : x.Meets)
include hx hmeets

/-- Instructions that neither hand over values nor take them succeed. -/
theorem genInstr_succeeds (hcomplete : site.Complete strings) (hop : x.op.passesArgs = false) :
    (genInstr site i x).Succeeds strings := by
  unfold Instr.Meets at hmeets
  unfold genInstr
  dsimp only
  cases hkind : x.op <;> simp only [hkind] at hmeets <;> dsimp only
  case nop => exact .pure
  case binary | compare | index =>
    exact .bind (sources_succeed hcomplete hx hmeets.2.1 hmeets.2.2) fun _ =>
      .bind (.bind .track fun _ => dst_succeeds hcomplete hx hmeets.1) fun _ => .pure
  case unary =>
    exact .bind (src1_succeeds hcomplete hx hmeets.2) fun _ =>
      .bind (.bind .track fun _ => dst_succeeds hcomplete hx hmeets.1) fun _ => .pure
  case setIndex =>
    refine .bind (.bind (.bind (load_succeeds ?_).within fun _ => ?_) fun _ => ?_) fun _ => .pure
    · exact hcomplete.offers ⟨Instr.dst_mem hx, hmeets.1⟩
    · exact .bind (src1_succeeds hcomplete hx hmeets.2.1).within fun _ => .pure
    · exact .bind (load_succeeds (hcomplete.offers ⟨Instr.src2_mem hx, hmeets.2.2⟩)).within fun _ => .pure
  case array | arg | call => simp [hkind, Code.Op.passesArgs] at hop
  case label =>
    obtain ⟨name, hname⟩ := hmeets
    simp only [hname]
    exact .bind .track fun _ => .pure
  case jump =>
    obtain ⟨name, hname⟩ := hmeets
    simp only [hname]
    exact .pure
  case jumpIfFalse =>
    obtain ⟨⟨name, hname⟩, hvalue⟩ := hmeets
    simp only [hname]
    exact .bind (src1_succeeds hcomplete hx hvalue) fun _ => .pure
  case ret =>
    split
    · exact .bind .pure fun _ => .pure
    · next hsome =>
      exact .bind (src1_succeeds hcomplete hx (hmeets.resolve_left (by simpa using hsome))) fun _ => .pure
  case exit =>
    have hload : (load site (some (x.src1.getD (.const (.int 0)))) .rdi).Succeeds strings := by
      cases hsrc : x.src1 with
      | none => exact load_succeeds trivial
      | some o => exact hsrc ▸ src1_succeeds hcomplete hx (hmeets.resolve_left (by simp [hsrc]))
    exact .bind hload fun _ => .bind .track fun _ => .pure
  all_goals
    exact .bind (src1_succeeds hcomplete hx hmeets.2) fun _ => .bind (dst_succeeds hcomplete hx hmeets.1) fun _ => .pure

variable (hcomplete : site.Complete g.strings) (hready : Ready site arity (x :: rest) g)
include hcomplete hready

/-- A call succeeds: what is pending is what it takes, and a call of the function itself gives
    each of its parameters a value. -/
theorem genCall_returns (hop : x.op = .call) (hrest : rest = site.func.code.drop (i + 1))
    (harity : ∀ n, arity site.func.name = some n → n = site.func.params.length) :
    (genCall site i x).Returns g fun r g' => g'.strings = g.strings ∧
      Ready site arity (if r.2 then rest.tail else rest) g' := by
  have hfit := hready.args
  simp only [ArgsFit, hop] at hfit
  obtain ⟨hlength, ⟨name, hname, hn⟩, hfit⟩ := hfit
  have hstorage : x.dst = none ∨ Operand.isStorage x.dst = true := hmeets.parts hop rfl rfl rfl
  have hdst : ∀ d, x.dst = some d → ∃ offset, site.frame.offset? d = some offset := fun d hd =>
    hcomplete.slots d (hd ▸ Instr.dst_mem hx) (hd ▸ hstorage.resolve_left (by simp [hd]))
  have hargs : ∀ a ∈ g.pending.toList, site.frame.Offers g.strings a := fun a ha =>
    hcomplete.offers (hready.readable a (by simpa using ha))
  simp only [genCall, hname]
  refine .bind ⟨g, g, rfl, ?_⟩
  dsimp only
  rw [if_pos hlength]
  refine .bind ⟨g.pending.toList, { g with pending := #[] }, rfl, ?_⟩
  dsimp only
  split
  · next htail =>
    have hlength : g.pending.toList.length = site.func.params.length := by
      rw [htail.1] at hn
      simpa using harity _ hn
    refine .bind ((tailJump_returns (g := { g with pending := #[] }) hargs hlength).mono
      fun _ g₁ hkeeps => .pure ⟨hkeeps.strings, ?_⟩)
    split
    · next hcovered =>
      refine .taken (ArgsFit.tail_of_ret hfit fun y hy => ?_) hkeeps.pending
      rw [hrest, List.head?_drop] at hy
      simp only [returnsNext] at hcovered
      rw [Option.mem_def.mp hy] at hcovered
      simpa using (of_decide_eq_true hcovered).1
    · exact .taken hfit hkeeps.pending
  · exact .bind ((plainCall_returns (g := { g with pending := #[] }) hargs hdst).mono
      fun _ g₁ hkeeps => .pure ⟨hkeeps.strings, .taken hfit hkeeps.pending⟩)

theorem genArray_returns (hop : x.op = .array) :
    (genArray site x).Returns g fun _ g' => g'.strings = g.strings ∧ Ready site arity rest g' := by
  have hfit := hready.args
  simp only [ArgsFit, hop] at hfit
  have hstorage : Operand.isStorage x.dst = true := hmeets.parts hop rfl rfl rfl
  refine .bind ⟨g, g, rfl, ?_⟩
  dsimp only
  rw [if_pos hfit.1]
  refine .bind ⟨g.pending.toList, { g with pending := #[] }, rfl, ?_⟩
  have helems : (storeElems site 0 g.pending.toList).Succeeds g.strings :=
    storeElems_succeeds fun a ha => hcomplete.offers (hready.readable a (Array.mem_toList_iff.mp ha))
  refine .bind ((helems { g with pending := #[] } rfl).mono fun _ g₁ hkeeps => ?_)
  have hkeep : (replace site x.dst).Succeeds g.strings :=
    .bind .track fun _ => dst_succeeds hcomplete hx hstorage
  refine .bind ((hkeep g₁ hkeeps.strings).mono fun _ g₂ hkeeps' => ?_)
  exact .pure ⟨(hkeeps.trans hkeeps').strings, .taken hfit.2 (hkeeps.trans hkeeps').pending⟩

/-- No instruction of a valid and shaped function fails to compile. -/
theorem genInstr_returns (hrest : rest = site.func.code.drop (i + 1))
    (harity : ∀ n, arity site.func.name = some n → n = site.func.params.length) :
    (genInstr site i x).Returns g fun r g' => g'.strings = g.strings ∧
      Ready site arity (if r.2 then rest.tail else rest) g' := by
  by_cases hpasses : x.op.passesArgs = false
  · obtain ⟨⟨code, covered⟩, g', hgen, hkeeps⟩ := genInstr_succeeds (i := i) hx hmeets hcomplete hpasses g rfl
    have hcovered : covered = false := by
      refine Bool.eq_false_iff.mpr fun hcovered => ?_
      have hop : x.op = .call := ((genInstr_gives g _ g' hgen).covered.mp hcovered).1
      simp [hop, Code.Op.passesArgs] at hpasses
    subst hcovered
    exact ⟨_, g', hgen, hkeeps.strings, hready.next hpasses hkeeps.pending⟩
  · unfold genInstr
    dsimp only
    cases hop : x.op <;> simp only [hop, Code.Op.passesArgs, not_true_eq_false] at hpasses <;> dsimp only
    case array => exact .bind ((genArray_returns hx hmeets hcomplete hready hop).mono fun _ _ hdone => .pure hdone)
    case call =>
      exact .bind ((genCall_returns hx hmeets hcomplete hready hop hrest harity).mono fun _ _ hdone => .pure hdone)
    case arg =>
      have hfit := hready.args
      have hvalue : Operand.isValue x.src1 = true := hmeets.parts hop rfl rfl rfl
      simp only [ArgsFit, hop] at hfit
      refine .bind (.bind ⟨g, g, rfl, ?_⟩)
      dsimp only
      rw [if_pos hfit.1]
      refine ⟨(), { g with pending := g.pending.push x.src1 }, rfl, .pure ⟨rfl, ?_, ?_⟩⟩
      · simpa using hfit.2
      · intro a ha
        rcases Array.mem_push.mp ha with ha | rfl
        · exact hready.readable a ha
        · exact ⟨Instr.src1_mem hx, hvalue⟩

end Instructions

/-- The code of a function compiles from any of its instructions on. -/
theorem genCode_returns {options : Options} {covered : Bool}
    (hcode : code = site.func.code.drop i) (hmeets : ∀ x ∈ site.func.code, x.Meets)
    (hcomplete : site.Complete g.strings)
    (harity : ∀ n, arity site.func.name = some n → n = site.func.params.length)
    (hready : Ready site arity (if covered then code.tail else code) g) :
    (genCode options site i covered code).Returns g fun _ g' => g'.strings = g.strings := by
  induction code generalizing i g covered with
  | nil => exact .pure rfl
  | cons x rest ih =>
    have hx : x ∈ site.func.code := List.mem_of_mem_drop (hcode ▸ List.mem_cons_self)
    have hrest : rest = site.func.code.drop (i + 1) := by
      rw [← List.tail_drop, ← hcode]
      rfl
    unfold genCode
    cases covered with
    | true => exact ih hrest hcomplete hready
    | false =>
      refine .bind ((genInstr_returns hx (hmeets x hx) hcomplete hready hrest harity).within.mono ?_)
      rintro ⟨code, covered⟩ g₁ ⟨hstrings, hready⟩
      refine .bind ((ih hrest (hstrings ▸ hcomplete) hready).mono fun _ g₂ hstrings' => ?_)
      exact .pure (hstrings'.trans hstrings)

theorem bindParams_returns
    (hos : ∀ a ∈ os, ∃ o offset, a = some o ∧ site.frame.offset? o = some offset) :
    (bindParams site index os regs).Returns g fun _ g' => g.Keeps g' := by
  induction os generalizing g index regs with
  | nil => exact .pure (.refl g)
  | cons a os ih =>
    obtain ⟨o, offset, rfl, hoffset⟩ := hos a (by simp)
    simp only [bindParams, Option.bind_some, hoffset]
    cases regs with
    | nil =>
      refine .bind ⟨(), _, rfl, .bind ((ih fun b hb => hos b (by simp [hb])).mono fun _ g₁ hkeeps => ?_)⟩
      exact .pure ⟨hkeeps.pending, hkeeps.strings⟩
    | cons r regs =>
      refine .bind ⟨(), _, rfl, .bind ((ih fun b hb => hos b (by simp [hb])).mono fun _ g₁ hkeeps => ?_)⟩
      exact .pure ⟨hkeeps.pending, hkeeps.strings⟩

/-- Labels that are labels can be collected. -/
theorem collectLabels_ok (hmeets : ∀ x ∈ code, x.Meets) (index : Nat)
    (labels : List (String × Nat)) : ∃ labels', collectLabels index labels code = .ok labels' := by
  induction code generalizing index labels with
  | nil => exact ⟨labels, rfl⟩
  | cons x code ih =>
    have hrest := ih (fun y hy => hmeets y (by simp [hy])) (index + 1)
    have hx := hmeets x (by simp)
    unfold Instr.Meets at hx
    unfold collectLabels
    cases hop : x.op <;> simp only [hop] at hx
    case label =>
      obtain ⟨name, hname⟩ := hx
      simp only [hname]
      exact hrest _
    all_goals exact hrest _

/-- Temporaries that are counted from zero find their places in the frame. -/
theorem Frame.addAll_ok (os : List (Option Operand)) (hproper : ∀ o, some o ∈ os → o.Proper) (fr : Frame) :
    ∃ fr', fr.addAll os = .ok fr' := by
  induction os generalizing fr with
  | nil => exact ⟨fr, rfl⟩
  | cons a os ih =>
    have hadd : ∃ fr₁, fr.add a = .ok fr₁ := by
      cases a with
      | none => exact ⟨fr, rfl⟩
      | some o =>
        have ho := hproper o (by simp)
        cases o with
        | temp t =>
          have hid : ¬ t.id < 0 := by
            simp only [Operand.Proper] at ho
            omega
          exact ⟨_, by simp only [add, slot?, BitSet.key, hid, if_false]; rfl⟩
        | _ => exact ⟨_, rfl⟩
    obtain ⟨fr₁, hadd⟩ := hadd
    obtain ⟨fr', hrest⟩ := ih (fun o ho => hproper o (by simp [ho])) fr₁
    exact ⟨fr', by rw [addAll, List.foldlM_cons, hadd]; exact hrest⟩

theorem Frame.ofFunc_ok (hproper : ∀ o, some o ∈ f.operands → o.Proper) :
    ∃ fr, Frame.ofFunc f = .ok fr := by
  obtain ⟨fr₁, hparams⟩ := Frame.addAll_ok (f.params.map (·.operand))
    (fun o ho => hproper o (List.mem_append_left _ ho)) {}
  obtain ⟨fr₂, hcode⟩ := Frame.addAll_ok (f.code.flatMap (·.operands))
    (fun o ho => hproper o (List.mem_append_right _ ho)) fr₁
  refine ⟨{ fr₂ with hasArrays := f.code.any (·.op = .array) }, ?_⟩
  rw [Frame.ofFunc, bind_eq_ok_iff]
  exact ⟨fr₁, hparams, bind_eq_ok_iff.mpr ⟨fr₂, hcode, rfl⟩⟩

theorem StringTable.mem_intern {s : Bytes} :
    t ∈ (strings.intern s).2.strings ↔ t = s ∨ t ∈ strings.strings := by
  unfold intern
  cases hindex : strings.strings.idxOf? s with
  | none => simp [or_comm]
  | some index =>
    have hmem : s ∈ strings.strings := by
      refine Decidable.by_contra fun hnot => ?_
      rw [Array.idxOf?_eq_none_iff.mpr hnot] at hindex
      cases hindex
    exact ⟨.inr, fun h => h.elim (fun heq => heq ▸ hmem) id⟩

theorem StringTable.mem_foldl_addOperand
    (ht : t ∈ strings.strings ∨ some (.const (.str t)) ∈ os) :
    t ∈ (os.foldl addOperand strings).strings := by
  induction os generalizing strings with
  | nil => simpa using ht
  | cons o os ih =>
    refine ih ?_
    rcases ht with ht | ht
    · refine .inl ?_
      cases o with
      | none => exact ht
      | some o =>
        cases o with
        | const c =>
          cases c with
          | str s => exact mem_intern.mpr (.inr ht)
          | _ => exact ht
        | _ => exact ht
    · rcases List.mem_cons.mp ht with rfl | ht
      · exact .inl (mem_intern.mpr (.inl rfl))
      · exact .inr ht

/-- The strings in the code of a program are in its table. -/
theorem StringTable.mem_ofProgram (hf : f ∈ p.funcs)
    (ht : some (.const (.str t)) ∈ f.code.flatMap (·.operands)) : t ∈ (ofProgram p).strings := by
  refine mem_foldl_addOperand (.inr ?_)
  obtain ⟨x, hx, ht⟩ := List.mem_flatMap.mp ht
  exact List.mem_flatMap.mpr ⟨x, List.mem_flatMap.mpr ⟨f, hf, hx⟩, ht⟩

/-- A function of a well-formed program can be handled. -/
theorem complete_of_wellFormed {frame : Frame} (hp : p.WellFormed)
    (hf : f ∈ p.funcs) (hexternal : f.isExternal = false) (hframe : Frame.ofFunc f = .ok frame)
    (labels : List (String × Nat)) : Site.Complete ⟨f, frame, labels⟩ (StringTable.ofProgram p) := by
  refine ⟨fun o ho hstorage => ?_, fun o ho => hp.proper hf hexternal ho, fun t ht => ?_⟩
  · obtain ⟨slot, hslot⟩ := Frame.slot?_of_isStorage hstorage fun t heq => by
      subst heq
      exact hp.proper hf hexternal ho
    exact Frame.offset?_of_mem_operands hframe ho hslot
  · rcases List.mem_append.mp ht with ht | ht
    · obtain ⟨name, heq⟩ := (hp.valid f hf hexternal).var_of_param ht
      cases heq
    · exact StringTable.mem_ofProgram hf ht

section WellFormed

variable {p : Code.Program} {f : Func} {frame : Frame} {reuse : Bool} {g : GenState} (hp : p.WellFormed)
  (hf : f ∈ p.funcs)
include hp hf

theorem arity_of_wellFormed {n : Nat} (hn : p.arity f.name = some n) : n = f.params.length := by
  rw [Code.Program.arity, Code.Program.func?_of_mem hp.names hf] at hn
  simpa using hn.symm

variable (hexternal : f.isExternal = false)
include hexternal

theorem bindParams_of_wellFormed (hframe : Frame.ofFunc f = .ok frame) (labels : List (String × Nat)) :
    (bindParams ⟨f, frame, labels⟩ 0 (f.params.map (·.operand)) Reg.args).Returns
      { strings := StringTable.ofProgram p, reuse }
      fun _ g' => GenState.Keeps { strings := StringTable.ofProgram p, reuse } g' :=
  bindParams_returns fun a ha => by
    obtain ⟨q, hq, rfl⟩ := List.mem_map.mp ha
    obtain ⟨name, hname⟩ := (hp.valid f hf hexternal).params q hq
    obtain ⟨offset, hoffset⟩ := (complete_of_wellFormed hp hf hexternal hframe labels).slots (.var name)
      (hname ▸ Code.Func.mem_operands_of_param hq) rfl
    exact ⟨.var name, offset, hname, hoffset⟩

/-- With its parameters bound, a function of a well-formed program waits for no arguments. -/
theorem ready_of_wellFormed (labels : List (String × Nat))
    (hkeeps : GenState.Keeps { strings := StringTable.ofProgram p, reuse } g) :
    Ready ⟨f, frame, labels⟩ p.arity f.code g := by
  refine ⟨?_, fun a ha => ?_⟩
  · rw [hkeeps.pending]
    exact (hp.shaped f hf hexternal).fragment.args
  · simp [hkeeps.pending] at ha

/-- A function of a well-formed program compiles, and its strings are known already. -/
theorem genFunc_ok_of_wellFormed (options : Options) :
    ∃ lines, genFunc options f (StringTable.ofProgram p) = .ok (lines, StringTable.ofProgram p) := by
  have hvalid := hp.valid f hf hexternal
  obtain ⟨frame, hframe⟩ := Frame.ofFunc_ok fun o ho => hp.proper hf hexternal ho
  obtain ⟨labels, hlabels⟩ := collectLabels_ok hvalid.meets 0 []
  have hcomplete := complete_of_wellFormed hp hf hexternal hframe labels
  obtain ⟨params, g₁, hparams, hkeeps⟩ := bindParams_of_wellFormed hp hf hexternal hframe labels
  have hbody : (genCode options ⟨f, frame, labels⟩ 0 false f.code).Returns g₁
      fun _ g' => g'.strings = g₁.strings :=
    genCode_returns rfl hvalid.meets (hkeeps.strings ▸ hcomplete) (fun _ => arity_of_wellFormed hp hf)
      (ready_of_wellFormed hp hf hexternal labels hkeeps)
  obtain ⟨body, g₂, hbody, hstrings⟩ := hbody
  exact ⟨_, genFunc_eq_ok_iff.mpr ⟨frame, labels, params, g₁, body, g₂, hframe, hlabels, hparams, hbody,
    rfl, (hstrings.trans hkeeps.strings).symm⟩⟩

end WellFormed

/-- The functions of a well-formed program compile. -/
theorem genFuncs_ok_of_wellFormed (hp : p.WellFormed) (options : Options)
    {funcs : List Func} (hfuncs : ∀ f ∈ funcs, f ∈ p.funcs) :
    ∃ lines, genFuncs options (StringTable.ofProgram p) funcs = .ok lines := by
  induction funcs with
  | nil => exact ⟨[], rfl⟩
  | cons f funcs ih =>
    obtain ⟨rest, hrest⟩ := ih fun g hg => hfuncs g (by simp [hg])
    have hf := hfuncs f (by simp)
    cases hexternal : f.isExternal with
    | true =>
      have hone : GenOne options f (StringTable.ofProgram p) [.external f.name] (StringTable.ofProgram p) :=
        .inl ⟨hexternal, hp.external f hf hexternal, rfl, rfl⟩
      exact ⟨_, genFuncs_cons_eq_ok_iff.mpr ⟨_, _, rest, hone, hrest, rfl⟩⟩
    | false =>
      obtain ⟨lines, hlines⟩ := genFunc_ok_of_wellFormed hp hf hexternal options
      exact ⟨_, genFuncs_cons_eq_ok_iff.mpr ⟨lines, _, rest, .inr ⟨hexternal, hlines⟩, hrest, rfl⟩⟩

/-- A well-formed program compiles to an assembly text. -/
theorem assemble_ok_of_wellFormed (hp : p.WellFormed) (options : Options) :
    ∃ text, assemble options p = .ok text := by
  obtain ⟨lines, hlines⟩ := genFuncs_ok_of_wellFormed hp options fun f hf => hf
  have hprogram : genProgram options p = .ok ([.segment ".data"] ++ (StringTable.ofProgram p).lines ++
      [.blank, .segment ".text"] ++ lines) := bind_eq_ok_iff.mpr ⟨lines, hlines, rfl⟩
  exact ⟨_, map_eq_ok_iff.mpr ⟨_, hprogram, rfl⟩⟩

end TreeCompiler.Asm
