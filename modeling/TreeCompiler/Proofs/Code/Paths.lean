import Mathlib.Data.List.Chain
import Mathlib.Data.List.Induction
import Mathlib.Data.Set.Basic
import TreeCompiler.Proofs.Code.Validity

/-!
Paths through the code of a function, whatever its operands hold, and what has been given a value
wherever a path comes. Code is read once, from its first to its last instruction: what is known
behind a label is said in advance, and every jump to the label has to live up to it.
-/

namespace TreeCompiler.Code

/-- What an instruction gives a value: a variable if it is stored to, a temporary if it is the target
    of any instruction but the one that replaces an element of an array. -/
def Instr.gives? (x : Instr) : Option Operand :=
  match x.op, x.dst with
  | .setIndex, _ => none
  | .store, some (.var name) => some (.var name)
  | _, some (.temp t) => some (.temp t)
  | _, _ => none

variable {name : String} {j : Nat} {params : Set String}

theorem Instr.gives?_eq_var_iff {x : Instr} :
    x.gives? = some (.var name) ↔ x.op = .store ∧ x.dst = some (.var name) := by
  unfold gives?
  split <;> simp_all

theorem Instr.gives?_eq_temp_iff {x : Instr} {t : Temp} :
    x.gives? = some (.temp t) ↔ x.op ≠ .setIndex ∧ x.dst = some (.temp t) := by
  unfold gives?
  split <;> simp_all

/-- The operands that an instruction takes values from. -/
def Instr.sources (x : Instr) : List (Option Operand) :=
  match x.op with
  | .setIndex => [x.dst, x.src1, x.src2]
  | _ => [x.src1, x.src2]

/-- Control goes on behind an instruction. -/
def Instr.GoesOn (x : Instr) : Prop :=
  x.op ≠ .jump ∧ x.op ≠ .ret ∧ x.op ≠ .exit

/-- Control can go from one position to another: to the one behind it, or to the place of a label. -/
inductive Flows (code : List Instr) : Nat → Nat → Prop where
  | next {i : Nat} {x : Instr} (hx : code[i]? = some x) (hgoes : x.GoesOn) : Flows code i (i + 1)
  | jump {i j : Nat} {x y : Instr} {name : String} (hx : code[i]? = some x) (htarget : x.target? = some name)
      (hy : code[j]? = some y) (hlabel : y.label? = some name) : Flows code i j

theorem flows_iff {code : List Instr} {i : Nat} :
    Flows code i j ↔ (∃ x ∈ code[i]?, x.GoesOn ∧ j = i + 1) ∨
      ∃ x ∈ code[i]?, ∃ y ∈ code[j]?, ∃ name ∈ x.target?, y.label? = some name := by
  constructor
  · rintro (⟨hx, hgoes⟩ | ⟨hx, htarget, hy, hlabel⟩)
    · exact .inl ⟨_, hx, hgoes, rfl⟩
    · exact .inr ⟨_, hx, _, hy, _, htarget, hlabel⟩
  · rintro (⟨x, hx, hgoes, rfl⟩ | ⟨x, hx, y, hy, name, htarget, hlabel⟩)
    · exact .next hx hgoes
    · exact .jump hx htarget hy hlabel

instance (x : Instr) : Decidable x.GoesOn :=
  inferInstanceAs (Decidable (_ ∧ _))

instance (code : List Instr) (i j : Nat) : Decidable (Flows code i j) :=
  decidable_of_iff _ flows_iff.symm

/-- A path from the first instruction to a position, by way of others. -/
inductive Path (code : List Instr) : List Nat → Nat → Prop where
  | start : Path code [] 0
  | step {passed : List Nat} {i j : Nat} (hpath : Path code passed i) (hflows : Flows code i j) :
      Path code (passed ++ [i]) j

/-- Positions that follow each other from the first one on are a path. -/
theorem Path.of_isChain {code : List Instr} {passed : List Nat} {i : Nat}
    (hstart : (passed ++ [i]).head? = some 0) (hchain : (passed ++ [i]).IsChain (Flows code)) :
    Path code passed i := by
  induction passed using List.reverseRecOn generalizing i with
  | nil =>
    cases hstart
    exact .start
  | append_singleton passed j ih =>
    obtain ⟨hbefore, _, hlast⟩ := List.isChain_append.mp hchain
    refine .step (ih ?_ hbefore) (hlast j (by simp) i (by simp))
    rwa [List.head?_append_of_ne_nil _ (by simp)] at hstart

/-- What the instructions at some positions give a value. -/
def Given (code : List Instr) (passed : List Nat) : Set Operand :=
  fun o => ∃ j ∈ passed, ∃ x, code[j]? = some x ∧ x.gives? = some o

/-- What an instruction uses: the temporaries it reads, unless they are of the type without values,
    and the variable it loads. -/
def Instr.Uses (x : Instr) : Operand → Prop
  | .temp t => t.ty ≠ .void ∧ some (.temp t) ∈ x.sources
  | .var name => x.op = .load ∧ x.src1 = some (.var name)
  | _ => False

variable {marks : String → Set Operand → Prop} {known known' known'' more : Set Operand}
  {x : Instr} {code code' : List Instr} {passed : List Nat} {i : Nat} {o : Operand}

theorem Given.append_left (ho : o ∈ Given code passed) (more : List Nat) : o ∈ Given code (passed ++ more) := by
  obtain ⟨j, hj, x, hx, hgives⟩ := ho
  exact ⟨j, List.mem_append_left _ hj, x, hx, hgives⟩

theorem Given.last (hx : code[i]? = some x) (hgives : x.gives? = some o) : o ∈ Given code (passed ++ [i]) :=
  ⟨i, by simp, x, hx, hgives⟩

/-- An instruction uses what is known before it, and what is known behind it was known or is given
    by it. -/
structure Passes (marks : String → Set Operand → Prop) (known : Set Operand) (x : Instr)
    (known' : Set Operand) : Prop where
  uses : ∀ o, x.Uses o → o ∈ known
  next : x.GoesOn → ∀ o ∈ known', o ∈ known ∨ x.gives? = some o
  target : ∀ name, x.target? = some name → ∃ said, marks name said ∧ said ⊆ known
  label : ∀ name said, x.label? = some name → marks name said → known' ⊆ said ∧ ∀ o, x.Uses o → o ∈ said

/-- Instructions in a row, with what is known before and behind them. -/
def Checked (marks : String → Set Operand → Prop) : Set Operand → List Instr → Set Operand → Prop
  | known, [], known' => known' ⊆ known
  | known, x :: code, known' => ∃ between, Passes marks known x between ∧ Checked marks between code known'

theorem Passes.mono (hpasses : Passes marks known x known') (hmore : known ⊆ more) :
    Passes marks more x known' where
  uses o ho := hmore (hpasses.uses o ho)
  next hgoes o ho := (hpasses.next hgoes o ho).imp_left fun hknown => hmore hknown
  target name hname := by
    obtain ⟨said, hmarks, hsaid⟩ := hpasses.target name hname
    exact ⟨said, hmarks, hsaid.trans hmore⟩
  label := hpasses.label

namespace Checked

theorem mono (hchecked : Checked marks known code known') (hmore : known ⊆ more) :
    Checked marks more code known' := by
  cases code with
  | nil => exact hchecked.trans hmore
  | cons x code =>
    obtain ⟨between, hpasses, hrest⟩ := hchecked
    exact ⟨between, hpasses.mono hmore, hrest⟩

theorem append (hchecked : Checked marks known code known')
    (hchecked' : Checked marks known' code' known'') : Checked marks known (code ++ code') known'' := by
  induction code generalizing known with
  | nil => exact hchecked'.mono hchecked
  | cons x code ih =>
    obtain ⟨between, hpasses, hrest⟩ := hchecked
    exact ⟨between, hpasses, ih hrest⟩

/-- From every position on, something is known. -/
theorem exists_drop (hchecked : Checked marks known code known') (i : Nat) :
    ∃ there, Checked marks there (code.drop i) known' := by
  induction i generalizing known code with
  | zero => exact ⟨known, hchecked⟩
  | succ i ih =>
    cases code with
    | nil => exact ⟨known, hchecked⟩
    | cons x code =>
      obtain ⟨between, _, hrest⟩ := hchecked
      exact ih hrest

/-- Who jumps to a label knows what is said to be known there. -/
theorem of_label {name : String} {said : Set Operand} (hchecked : Checked marks known (x :: code) known')
    (hlabel : x.label? = some name) (hmarks : marks name said) : Checked marks said (x :: code) known' := by
  obtain ⟨between, hpasses, hrest⟩ := hchecked
  obtain ⟨hbetween, huses⟩ := hpasses.label name said hlabel hmarks
  exact ⟨between, ⟨huses, fun _ o ho => .inl (hbetween ho), fun name' hname' => by
    have hop := (Instr.label?_eq_some_iff.mp hlabel).1
    simp [Instr.target?, hop] at hname', hpasses.label⟩, hrest⟩

variable {start : Set Operand}

/-- One step along a path: what is known was known at first or has been given on the way. -/
theorem step {there : Set Operand} {j : Nat} (hall : Checked marks start code known')
    (hthere : there ⊆ start ∪ Given code passed) (hchecked : Checked marks there (code.drop i) known')
    (hflows : Flows code i j) :
    ∃ next ⊆ start ∪ Given code (passed ++ [i]), Checked marks next (code.drop j) known' := by
  have hkept : there ⊆ start ∪ Given code (passed ++ [i]) := fun o ho =>
    (hthere ho).imp_right fun hgiven => Given.append_left hgiven [i]
  cases hflows with
  | next hx hgoes =>
    rw [drop_of_getElem? hx] at hchecked
    obtain ⟨between, hpasses, hrest⟩ := hchecked
    refine ⟨between, fun o ho => ?_, hrest⟩
    rcases hpasses.next hgoes o ho with hknown | hgives
    · exact hkept hknown
    · exact .inr (Given.last hx hgives)
  | @jump _ x y name hx htarget hy hlabel =>
    rw [drop_of_getElem? hx] at hchecked
    obtain ⟨between, hpasses, _⟩ := hchecked
    obtain ⟨said, hmarks, hsaid⟩ := hpasses.target name htarget
    obtain ⟨other, hother⟩ := hall.exists_drop j
    rw [drop_of_getElem? hy] at hother ⊢
    exact ⟨said, hsaid.trans hkept, hother.of_label hlabel hmarks⟩

/-- Along a path, what is known was known at first or has been given on the way. -/
theorem along (hall : Checked marks start code known') (hpath : Path code passed i) :
    ∃ there ⊆ start ∪ Given code passed, Checked marks there (code.drop i) known' := by
  induction hpath with
  | start => exact ⟨start, Set.subset_union_left, hall⟩
  | step _ hflows ih =>
    obtain ⟨there, hthere, hchecked⟩ := ih
    exact hall.step hthere hchecked hflows

/-- Whatever an instruction on a path uses was known at first or has been given a value on the way. -/
theorem uses (hall : Checked marks start code known') (hpath : Path code passed i)
    (hx : code[i]? = some x) (huses : x.Uses o) : o ∈ start ∨ o ∈ Given code passed := by
  obtain ⟨there, hthere, hchecked⟩ := hall.along hpath
  rw [drop_of_getElem? hx] at hchecked
  obtain ⟨_, hpasses, _⟩ := hchecked
  exact hthere (hpasses.uses o huses)

end Checked

/-- Control can come to a position without a store to a variable, which is none of the parameters. -/
def Unset (params : Set String) (code : List Instr) (i : Nat) (name : String) : Prop :=
  name ∉ params ∧ ∃ passed, Path code passed i ∧ .var name ∉ Given code passed

theorem Unset.step (hunset : Unset params code i name)
    (hx : code[i]? = some x) (hgives : x.gives? ≠ some (.var name)) (hflows : Flows code i j) :
    Unset params code j name := by
  obtain ⟨hparam, passed, hpath, hnot⟩ := hunset
  refine ⟨hparam, passed ++ [i], hpath.step hflows, fun hgiven => ?_⟩
  obtain ⟨k, hk, y, hy, hgives'⟩ := hgiven
  rcases List.mem_append.mp hk with hk | hk
  · exact hnot ⟨k, hk, y, hy, hgives'⟩
  · rw [List.mem_singleton.mp hk, hx, Option.some.injEq] at hy
    exact hgives (hy ▸ hgives')

/-- The variables that hold the arguments of a function. -/
def Func.argVars (f : Func) : Set String :=
  fun name => some (.var name) ∈ f.params.map (·.operand)

/-- Whatever way control takes, a variable that is none of the parameters is loaded only after a store
    to it. -/
def StoresFirst (params : Set String) (code : List Instr) : Prop :=
  ∀ passed i x name, Path code passed i → code[i]? = some x → x.op = .load → x.src1 = some (.var name) →
    name ∉ params → ∃ j ∈ passed, ∃ y, code[j]? = some y ∧ y.op = .store ∧ y.dst = some (.var name)

theorem StoresFirst.not_unset (hfirst : StoresFirst params code)
    (hx : code[i]? = some x) (hop : x.op = .load) (hsrc : x.src1 = some (.var name)) :
    ¬ Unset params code i name := by
  rintro ⟨hparam, passed, hpath, hnot⟩
  obtain ⟨j, hj, y, hy, hstore⟩ := hfirst passed i x name hpath hx hop hsrc hparam
  exact hnot ⟨j, hj, y, hy, Instr.gives?_eq_var_iff.mpr hstore⟩

end TreeCompiler.Code
