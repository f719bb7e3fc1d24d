import TreeCompiler.Proofs.Asm.Placement

/-!
What the instructions of a text refer to: marks and functions by their names, strings by their numbers
in the table. What holds of every instruction that may be emitted holds of the lines of a function.
-/

namespace TreeCompiler.Asm

open Code

/-- Whether an instruction refers to nothing by a name or a number. -/
def Insn.isNameless : Insn → Bool
  | .jump _ | .jumpIfZero _ | .call _ | .leaString .. => false
  | _ => true

/-- Texts among some operands are of a kind. -/
def TextsAre (K : Bytes → Prop) (os : List (Option Operand)) : Prop :=
  ∀ s, some (.const (.str s)) ∈ os → K s

/-- A computation leaves a table of strings as it is, and texts that it hands on are of a kind. -/
def GenM.Emits {α : Type} (strings : StringTable) (K : Bytes → Prop) (m : GenM α) (P : α → Prop) : Prop :=
  ∀ g a g', g.strings = strings → TextsAre K g.pending.toList → m g = .ok (a, g') →
    P a ∧ g'.strings = strings ∧ TextsAre K g'.pending.toList

namespace GenM.Emits

variable {α β : Type} {strings : StringTable} {K : Bytes → Prop} {m : GenM α} {P : α → Prop}

theorem bind {f : α → GenM β} {Q : β → Prop} (hm : Emits strings K m P)
    (hf : ∀ a, P a → Emits strings K (f a) Q) : Emits strings K (m >>= f) Q := by
  intro g b g' hg hpending hrun
  obtain ⟨a, g₁, hma, hfa⟩ := GenM.bind_eq_ok_iff.mp hrun
  obtain ⟨ha, hg₁, hpending₁⟩ := hm g a g₁ hg hpending hma
  exact hf a ha g₁ b g' hg₁ hpending₁ hfa

theorem pure {a : α} (ha : P a) : Emits strings K (Pure.pure a) P := by
  intro g b g' hg hpending hrun
  obtain ⟨rfl, rfl⟩ := GenM.pure_eq_ok_iff.mp hrun
  exact ⟨ha, hg, hpending⟩

theorem fail {cause : Cause} : Emits strings K (GenM.fail cause) P :=
  fun g _ _ _ _ hrun => (GenM.fail_ne_ok g hrun).elim

theorem within {place : Place} (hm : Emits strings K m P) : Emits strings K (GenM.within place m) P :=
  fun g a g' hg hpending hrun => hm g a g' hg hpending (GenM.within_eq_ok_iff.mp hrun)

theorem get : Emits strings K (MonadState.get : GenM GenState) fun _ => True := by
  intro g a g' hg hpending hrun
  obtain ⟨rfl, rfl⟩ := GenM.get_eq_ok_iff.mp hrun
  exact ⟨trivial, hg, hpending⟩

theorem track {f : Cache → Cache} : Emits strings K (GenM.track f) fun _ => True := by
  intro g a g' hg hpending hrun
  obtain rfl := GenM.track_eq_ok_iff.mp hrun
  exact ⟨trivial, hg, hpending⟩

theorem takePending : Emits strings K GenM.takePending (TextsAre K) := by
  intro g os g' hg hpending hrun
  obtain ⟨rfl, rfl⟩ := GenM.takePending_eq_ok_iff.mp hrun
  exact ⟨hpending, hg, fun s hs => by simp at hs⟩

end GenM.Emits

/-- A string stands in the table at its number. -/
theorem StringTable.getElem?_intern (t : StringTable) (s : Bytes) :
    (t.intern s).2.strings[(t.intern s).1]? = some s := by
  unfold intern
  split
  · next index hindex =>
    rw [← t.strings.toArray_toList, List.idxOf?_toArray] at hindex
    obtain ⟨hlt, heq, _⟩ := List.idxOf?_eq_some_iff.mp hindex
    rw [← heq, ← Array.getElem?_toList]
    exact List.getElem?_eq_getElem hlt
  · exact Array.getElem?_push_size

/-- What instructions may be: those that refer to nothing, and those that load texts of a kind by
    their numbers in a table. -/
structure Admits (strings : StringTable) (T K : Bytes → Prop) (Q : Insn → Prop) : Prop where
  nameless : ∀ y : Insn, y.isNameless = true → Q y
  listed : ∀ s, T s → s ∈ strings.strings
  handed : ∀ s, K s → T s
  loads : ∀ r k s, T s → strings.strings[k]? = some s → Q (.leaString r k)

namespace Admits

variable {strings : StringTable} {T K : Bytes → Prop} {Q : Insn → Prop} {site : Site} {x : Instr}
    {i : Nat} {r : Reg}
  {o dst left right : Option Operand}

variable {args : List (Option Operand)} {index : Nat}

theorem textsAre_stackArgs (hargs : TextsAre K args) :
    TextsAre K ((stackArgs args).map (·.2)) := by
  intro s hs
  obtain ⟨a, ha, heq⟩ := List.mem_map.mp hs
  exact hargs s (heq ▸ mem_stackArgs ha)

variable (hQ : Admits strings T K Q)
include hQ

theorem one {y : Insn} (hy : y.isNameless = true) : Each Q [y] :=
  .one (hQ.nameless y hy)

theorem some {n : Nat} {y : Insn} (hy : y.isNameless = true) : Each Q (if n = 0 then [] else [y]) := by
  split
  · exact .nil
  · exact hQ.one hy

theorem all {xs : List Insn} (hxs : xs.all Insn.isNameless = true) : Each Q xs :=
  fun y hy => hQ.nameless y (List.all_eq_true.mp hxs y hy)

/-- A text is loaded by the number that it has in the table. -/
theorem load (ho : ∀ s, o = .some (.const (.str s)) → T s) : (load site o r).Emits strings K (Each Q) := by
  intro g xs g' hg hpending hrun
  obtain ⟨v, rfl, hloaded⟩ := load_ok hrun
  cases hloaded with
  | hit => exact ⟨.nil, hg, hpending⟩
  | move => exact ⟨hQ.one rfl, hg, hpending⟩
  | fetch hfetch =>
    cases hfetch with
    | str s hv =>
      subst hv
      have hs : T s := ho s rfl
      have hkept : (g.strings.intern s).2 = strings := by
        rw [hg]
        exact StringTable.intern_of_mem (hQ.listed s hs)
      refine ⟨.one (hQ.loads _ _ s hs ?_), hkept, hpending⟩
      rw [← hkept]
      exact g.strings.getElem?_intern s
    | _ => exact ⟨hQ.one rfl, hg, hpending⟩

theorem loadHanded {os : List (Option Operand)} (hos : TextsAre K os) (ho : o ∈ os) :
    (Asm.load site o r).Emits strings K (Each Q) :=
  hQ.load fun s hs => hQ.handed s (hos s (hs ▸ ho))

theorem store : (store site o r).Emits strings K (Each Q) := by
  intro g xs g' hg hpending hrun
  obtain ⟨_, _, _, _, rfl, rfl⟩ := store_ok hrun
  exact ⟨hQ.one rfl, hg, hpending⟩

theorem produce : (produce site dst).Emits strings K (Each Q) :=
  GenM.Emits.track.bind fun _ _ => hQ.store

theorem replace : (replace site dst).Emits strings K (Each Q) :=
  GenM.Emits.track.bind fun _ _ => hQ.store

theorem loadPair (hleft : ∀ s, left = .some (.const (.str s)) → T s)
    (hright : ∀ s, right = .some (.const (.str s)) → T s) : (loadPair site left right).Emits strings K (Each Q) :=
  (hQ.load hleft).within.bind fun _ hl => (hQ.load hright).within.bind fun _ hr =>
    .pure (hl.append hr)

theorem loadRegArgs {regs : List Reg} (hargs : TextsAre K args) :
    (loadRegArgs site index args regs).Emits strings K (Each Q) := by
  induction args generalizing regs index with
  | nil => exact .pure .nil
  | cons a args ih =>
    cases regs with
    | nil => exact .pure .nil
    | cons r regs =>
      exact (hQ.loadHanded hargs List.mem_cons_self).within.bind fun _ hcode =>
        (ih fun s hs => hargs s (List.mem_cons_of_mem _ hs)).bind fun _ hrest =>
          .pure (hcode.append hrest)

theorem pushArgs {args : List (Nat × Option Operand)} (hargs : TextsAre K (args.map (·.2))) :
    (pushArgs site args).Emits strings K (Each Q) := by
  induction args with
  | nil => exact .pure .nil
  | cons a args ih =>
    exact (hQ.loadHanded hargs List.mem_cons_self).within.bind fun _ hcode =>
      (ih fun s hs => hargs s (List.mem_cons_of_mem _ hs)).bind fun _ hrest =>
        .pure ((hcode.append (hQ.one rfl)).append hrest)

theorem overwriteArgs {args : List (Nat × Option Operand)} (hargs : TextsAre K (args.map (·.2))) :
    (overwriteArgs site args).Emits strings K (Each Q) := by
  induction args with
  | nil => exact .pure .nil
  | cons a args ih =>
    exact (hQ.loadHanded hargs List.mem_cons_self).within.bind fun _ hcode =>
      (ih fun s hs => hargs s (List.mem_cons_of_mem _ hs)).bind fun _ hrest =>
        .pure ((hcode.append (hQ.one rfl)).append hrest)

theorem storeElems {elems : List (Option Operand)} (helems : TextsAre K elems) :
    (storeElems site index elems).Emits strings K (Each Q) := by
  induction elems generalizing index with
  | nil => exact .pure .nil
  | cons e elems ih =>
    exact (hQ.loadHanded helems List.mem_cons_self).within.bind fun _ hcode =>
      (ih fun s hs => helems s (List.mem_cons_of_mem _ hs)).bind fun _ hrest =>
        .pure ((hcode.append (hQ.one rfl)).append hrest)

theorem bindParams {os : List (Option Operand)} {regs : List Reg} :
    (bindParams site index os regs).Emits strings K (Each Q) := by
  induction os generalizing regs index with
  | nil => exact .pure .nil
  | cons o os ih =>
    unfold Asm.bindParams
    split
    · split
      · exact GenM.Emits.track.bind fun _ _ => ih.bind fun _ hrest =>
          .pure ((hQ.one rfl).append hrest)
      · exact GenM.Emits.track.bind fun _ _ => ih.bind fun _ hrest =>
          .pure ((hQ.all rfl).append hrest)
    · exact .fail

theorem tailJump (hentry : Q (.jump "entry")) (hargs : TextsAre K args) :
    (tailJump site args).Emits strings K (Each Q) := by
  unfold Asm.tailJump
  split
  · exact .fail
  · exact (hQ.overwriteArgs (textsAre_stackArgs hargs)).bind fun _ hstack =>
      (hQ.loadRegArgs hargs).bind fun _ hregs => GenM.Emits.track.bind fun _ _ =>
        .pure ((hstack.append hregs).append (.one hentry))

theorem plainCall {name : String} (hcall : Q (.call name)) (hargs : TextsAre K args) :
    (plainCall site name args dst).Emits strings K (Each Q) := by
  have hreversed : TextsAre K ((stackArgs args).reverse.map (·.2)) := by
    intro s hs
    rw [List.map_reverse, List.mem_reverse] at hs
    exact textsAre_stackArgs hargs s hs
  refine (hQ.pushArgs hreversed).bind fun pushes hpushes => (hQ.loadRegArgs hargs).bind fun inRegs hinRegs =>
    GenM.Emits.track.bind fun _ _ => ?_
  have hkept {keep : List Insn} (hkeep : Each Q keep) {pad bytes : Nat} :
      Each Q ((if pad = 0 then [] else [.grow pad]) ++ pushes ++ inRegs ++ [.call name] ++
        (if bytes = 0 then [] else [.shrink bytes]) ++ keep) :=
    (((((hQ.some rfl).append hpushes).append hinRegs).append (.one hcall)).append (hQ.some rfl)).append hkeep
  dsimp only
  split
  · exact .bind (.pure .nil) fun _ hkeep => .pure (hkept hkeep)
  · exact hQ.store.bind fun _ hkeep => .pure (hkept hkeep)

theorem genCall (hentry : Q (.jump "entry")) (hcallee : ∀ name, x.src1 = .some (.func name) → Q (.call name)) :
    (genCall site i x).Emits strings K fun r => Each Q r.1 := by
  unfold Asm.genCall
  split
  · next name hname =>
    refine GenM.Emits.get.bind fun g _ => ?_
    dsimp only
    split
    · refine GenM.Emits.takePending.bind fun args hargs => ?_
      split
      · exact (hQ.tailJump hentry hargs).bind fun _ hcode => .pure hcode
      · exact (hQ.plainCall (hcallee name hname) hargs).bind fun _ hcode => .pure hcode
    · exact .fail
  · exact .fail

theorem genArray : (genArray site x).Emits strings K (Each Q) := by
  refine GenM.Emits.get.bind fun g _ => ?_
  dsimp only
  split
  · exact GenM.Emits.takePending.bind fun elems helems => (hQ.storeElems helems).bind fun _ hstores =>
      hQ.replace.bind fun _ hkeep => .pure ((((hQ.all rfl).append hstores).append (hQ.one rfl)).append hkeep)
  · exact .fail

/-- The lines of an instruction refer to what it refers to itself, to the ends of its function, and to
    texts among its operands and what was handed on to it. -/
theorem genInstr (hentry : Q (.jump "entry")) (hexit : Q (.jump "exit"))
    (htarget : ∀ name, x.target? = .some name → Q (.jump name) ∧ Q (.jumpIfZero name))
    (hcallee : ∀ name, x.op = .call → x.src1 = .some (.func name) → Q (.call name))
    (hx : TextsAre T x.operands) (harg : x.op = .arg → ∀ s, x.src1 = .some (.const (.str s)) → K s) :
    (genInstr site i x).Emits strings K fun r => ∀ y, .insn y ∈ r.1 → Q y := by
  have hplain {xs : List Insn} (hxs : Each Q xs) : ∀ y, Line.insn y ∈ xs.map .insn → Q y := by
    intro y hmem
    obtain ⟨z, hz, heq⟩ := List.mem_map.mp hmem
    cases heq
    exact hxs y hz
  have hdst : ∀ s, x.dst = .some (.const (.str s)) → T s := fun s hs => hx s (by simp [Instr.operands, hs])
  have hsrc1 : ∀ s, x.src1 = .some (.const (.str s)) → T s := fun s hs => hx s (by simp [Instr.operands, hs])
  have hsrc2 : ∀ s, x.src2 = .some (.const (.str s)) → T s := fun s hs => hx s (by simp [Instr.operands, hs])
  unfold Asm.genInstr
  dsimp only
  cases hop : x.op <;> dsimp only
  case nop => exact .pure (hplain .nil)
  case binary op =>
    exact (hQ.loadPair hsrc1 hsrc2).bind fun _ hpair => hQ.produce.bind fun _ hkeep =>
      .pure (hplain ((hpair.append (hQ.all (by cases op <;> rfl))).append hkeep))
  case compare op =>
    exact (hQ.loadPair hsrc1 hsrc2).bind fun _ hpair => hQ.produce.bind fun _ hkeep =>
      .pure (hplain ((hpair.append (hQ.all rfl)).append hkeep))
  case unary op =>
    exact (hQ.load hsrc1).bind fun _ harg => hQ.replace.bind fun _ hkeep =>
      .pure (hplain ((harg.append (hQ.all (by cases op <;> rfl))).append hkeep))
  case index =>
    exact (hQ.loadPair hsrc1 hsrc2).bind fun _ hpair => hQ.replace.bind fun _ hkeep =>
      .pure (hplain ((hpair.append (hQ.one rfl)).append hkeep))
  case setIndex =>
    exact .bind ((hQ.loadPair hdst hsrc1).bind fun _ hpair => (hQ.load hsrc2).within.bind fun _ hvalue =>
      .pure ((hpair.append hvalue).append (hQ.one rfl))) fun _ hcode => .pure (hplain hcode)
  case array => exact hQ.genArray.bind fun _ hcode => .pure (hplain hcode)
  case arg =>
    refine .bind (P := fun _ => True) (GenM.Emits.get.bind fun g _ => ?_) fun _ _ => .pure (hplain .nil)
    dsimp only
    split
    · intro g u g' hg hpending hrun
      cases hrun
      refine ⟨trivial, hg, fun s hs => ?_⟩
      rw [Array.toList_push, List.mem_append, List.mem_singleton] at hs
      exact hs.elim (hpending s) fun heq => harg hop s heq.symm
    · exact .fail
  case call => exact (hQ.genCall hentry fun name => hcallee name hop).bind fun r hcode => .pure (hplain hcode)
  case label =>
    split
    · exact GenM.Emits.track.bind fun _ _ => .pure (by simp)
    · exact .fail
  case jump =>
    split
    · next name hname =>
      have hjump := (htarget name (by simp [Instr.target?, hop, hname])).1
      exact .pure (hplain (.one hjump))
    · exact .fail
  case jumpIfFalse =>
    split
    · next name hname =>
      have hjump := (htarget name (by simp [Instr.target?, hop, hname])).2
      exact (hQ.load hsrc1).bind fun _ htest =>
        .pure (hplain (htest.append (.append (hQ.one rfl) (.one hjump))))
    · exact .fail
  case ret =>
    have hleave : Each Q (if i + 1 < site.func.code.length then [.jump "exit"] else []) := by
      split
      · exact .one hexit
      · exact .nil
    split
    · exact .bind (.pure Each.nil) fun _ hvalue => .pure (hplain (hvalue.append hleave))
    · exact (hQ.load hsrc1).bind fun _ hvalue => .pure (hplain (hvalue.append hleave))
  case exit =>
    refine (hQ.load fun s hs => ?_).bind fun _ hcode => GenM.Emits.track.bind fun _ _ =>
      .pure (hplain (hcode.append (hQ.all rfl)))
    cases hsrc : x.src1 with
    | none => simp [hsrc] at hs
    | some v => exact hsrc1 s (by simpa [hsrc] using hs)
  case unknown => exact .fail
  all_goals
    exact (hQ.load hsrc1).bind fun _ hvalue => hQ.store.bind fun _ hkeep =>
      .pure (hplain (hvalue.append hkeep))

end Admits

end TreeCompiler.Asm
