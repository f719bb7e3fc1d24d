import Mathlib.Data.Set.Insert
import TreeCompiler.Proofs.Code.Paths
import TreeCompiler.Proofs.Lower.Simulation
import TreeCompiler.Proofs.Lower.Sureness
import TreeCompiler.Proofs.Tree.Nodes

/-!
Lowered code gives a value to what it uses, on every way through it: to all temporaries, and to the
variables if the variables of the program are settled.
-/

namespace TreeCompiler.Code

variable {marks : String → Set Operand → Prop} {known known' : Set Operand} {x : Instr}

/-- A temporary is known, if values of its type are used at all. -/
def Live (known : Set Operand) (t : Temp) : Prop :=
  t.ty ≠ .void → .temp t ∈ known

theorem Live.mono {t : Temp} (hlive : Live known t) (hsub : known ⊆ known') : Live known' t :=
  fun hty => hsub (hlive hty)

/-- An instruction is no label, and control goes on behind it in any case. -/
structure Instr.Plain (x : Instr) : Prop where
  goesOn : x.GoesOn
  target : x.target? = none
  label : x.label? = none

/-- What is used by an instruction that loads nothing is known if the temporaries it reads are. -/
theorem Instr.uses_known (hop : x.op ≠ .load) (hlive : ∀ t, some (.temp t) ∈ x.sources → Live known t) :
    ∀ o, x.Uses o → o ∈ known
  | .temp t, huses => hlive t huses.2 huses.1
  | .var _, huses => absurd huses.1 hop

namespace Passes

/-- An instruction that gives something a value. -/
theorem put {o : Operand} (hplain : x.Plain) (hgives : x.gives? = some o) (huses : ∀ o, x.Uses o → o ∈ known) :
    Passes marks known x (insert o known) where
  uses := huses
  next _ o' ho' := by
    rcases ho' with rfl | ho'
    · exact .inr hgives
    · exact .inl ho'
  target name hname := by simp [hplain.target] at hname
  label name said hname := by simp [hplain.label] at hname

/-- An instruction that leaves everything as it is. -/
theorem pass (hplain : x.Plain) (huses : ∀ o, x.Uses o → o ∈ known) : Passes marks known x known where
  uses := huses
  next _ o ho := .inl ho
  target name hname := by simp [hplain.target] at hname
  label name said hname := by simp [hplain.label] at hname

/-- An instruction with nothing behind it. -/
theorem leave (hop : x.op = .ret ∨ x.op = .exit) (huses : ∀ o, x.Uses o → o ∈ known) :
    Passes marks known x known' where
  uses := huses
  next hgoes := by
    rcases hop with hop | hop
    · exact absurd hop hgoes.2.1
    · exact absurd hop hgoes.2.2
  target name hname := by rcases hop with hop | hop <;> simp [Instr.target?, hop] at hname
  label name said hname := by rcases hop with hop | hop <;> simp [Instr.label?, hop] at hname

end Passes

end TreeCompiler.Code

namespace TreeCompiler.Lower

open Code
open TreeCompiler.Tree (Expr Literal Sure GotoFree nodesAll sureAll settledAll nodesAll_singleton
  sureAll_singleton settledAll_singleton)

/-- What is said to be known behind labels, by the numbers of the labels. -/
def Marks (said : Nat → Set Operand) (name : String) (known : Set Operand) : Prop :=
  ∃ k, name = "L" ++ toString k ∧ known = said k

theorem marks_iff {said : Nat → Set Operand} {k : Nat} {known : Set Operand} :
    Marks said ("L" ++ toString k) known ↔ known = said k := by
  constructor
  · rintro ⟨k', hname, rfl⟩
    rw [numeral_inj ((String.append_right_inj _).mp hname)]
  · exact fun heq => ⟨k, rfl, heq⟩

section Passes

variable {said : Nat → Set Operand} {known known' : Set Operand} {k : Nat}

theorem passes_jump (hsaid : said k ⊆ known) :
    Passes (Marks said) known (jumpInstr k) known' where
  uses := Instr.uses_known (by simp) (by simp [Instr.sources])
  next hgoes := absurd rfl hgoes.1
  target name hname := by
    cases hname
    exact ⟨_, marks_iff.mpr rfl, hsaid⟩
  label name said hname := by cases hname

theorem passes_branch {t : Temp} (hsaid : said k ⊆ known) (hlive : Live known t) :
    Passes (Marks said) known (branchInstr k t) known where
  uses := Instr.uses_known (by simp) (by simpa [Instr.sources] using hlive)
  next _ o ho := .inl ho
  target name hname := by
    cases hname
    exact ⟨_, marks_iff.mpr rfl, hsaid⟩
  label name said hname := by cases hname

theorem passes_label (hknown : known' ⊆ known) (hsaid : known' ⊆ said k) :
    Passes (Marks said) known (labelInstr k) known' where
  uses := Instr.uses_known (by simp) (by simp [Instr.sources])
  next _ o ho := .inl (hknown ho)
  target name hname := by cases hname
  label name known₀ hname hmarks := by
    cases hname
    obtain rfl := marks_iff.mp hmarks
    exact ⟨hsaid, Instr.uses_known (by simp) (by simp [Instr.sources])⟩

theorem passes_userLabel {name : String} :
    Passes (Marks said) known ⟨.label, some (userLabel name), none, none⟩ known where
  uses := Instr.uses_known (by simp) (by simp [Instr.sources])
  next _ o ho := .inl ho
  target name hname := by cases hname
  label name' known₀ hname hmarks := by
    obtain ⟨k, rfl, _⟩ := hmarks
    have hplaces : Places k ⟨.label, some (userLabel name), none, none⟩ := Instr.label?_eq_some_iff.mp hname
    exact (not_places_userLabel hplaces).elim

theorem checked_args {ts : List Temp} {index : Nat} (hlive : ∀ t ∈ ts, Live known t) :
    Checked (Marks said) known (argInstrs index ts) known := by
  induction ts generalizing index with
  | nil => exact subset_rfl
  | cons t ts ih =>
    have hplain : Instr.Plain ⟨.arg, none, some (.temp t), some (.const (.int (Int64.ofNat index)))⟩ :=
      ⟨by simp [Instr.GoesOn], rfl, rfl⟩
    refine ⟨known, .pass hplain (Instr.uses_known (by simp) ?_), ih fun t' ht' => hlive t' (by simp [ht'])⟩
    simpa [Instr.sources] using hlive t (by simp)

end Passes

/-- Code that leads from one context to another, with what is known before and behind it. -/
def Lays (fixed : List (Nat × Set Operand)) (c : Context) (known : Set Operand) (c' : Context)
    (known' : Set Operand) : Prop :=
  c.labels ≤ c'.labels ∧ ∃ (code : List Instr) (own : Nat → Set Operand),
    c'.code.toList = c.code.toList ++ code ∧
    ∀ said : Nat → Set Operand, (∀ p ∈ fixed, said p.1 = p.2) →
      (∀ k, c.labels ≤ k → k < c'.labels → said k = own k) → Checked (Marks said) known code known'

namespace Lays

variable {fixed : List (Nat × Set Operand)} {c c₁ c' : Context} {known known₁ known' : Set Operand}

theorem trans (hlays : Lays fixed c known c₁ known₁) (hlays' : Lays fixed c₁ known₁ c' known') :
    Lays fixed c known c' known' := by
  obtain ⟨hle, code, own, hcode, hchecked⟩ := hlays
  obtain ⟨hle', code', own', hcode', hchecked'⟩ := hlays'
  refine ⟨Nat.le_trans hle hle', code ++ code', fun k => if k < c₁.labels then own k else own' k,
    by rw [hcode', hcode, List.append_assoc], fun said hfixed hown => ?_⟩
  refine (hchecked said hfixed fun k hlow hhigh => ?_).append (hchecked' said hfixed fun k hlow hhigh => ?_)
  · exact (hown k hlow (by omega)).trans (if_pos hhigh)
  · exact (hown k (by omega) hhigh).trans (if_neg (by omega))

theorem refl : Lays fixed c known c known :=
  ⟨Nat.le_refl _, [], fun _ => ∅, by simp, fun _ _ _ => subset_rfl⟩

/-- Code that makes no label. -/
theorem code {m : Nat} {xs : List Instr}
    (hchecked : ∀ said, (∀ p ∈ fixed, said p.1 = p.2) → Checked (Marks said) known xs known') :
    Lays fixed c known (c.add m 0 xs) known' :=
  ⟨Nat.le_refl _, xs, fun _ => ∅, by simp, fun said hfixed _ => hchecked said hfixed⟩

/-- A label is made for use in the code that follows. -/
theorem label {m : Nat} (there : Set Operand)
    (hlays : Lays ((c.labels, there) :: fixed) (c.add m 1 []) known c' known') : Lays fixed c known c' known' := by
  obtain ⟨hle, code, own, hcode, hchecked⟩ := hlays
  rw [Context.add_labels] at hle
  refine ⟨by omega, code, fun k => if k = c.labels then there else own k, by simpa using hcode,
    fun said hfixed hown => hchecked said (fun p hp => ?_) fun k hlow hhigh => ?_⟩
  · rcases List.mem_cons.mp hp with rfl | hp
    · exact (hown _ (Nat.le_refl _) (by omega)).trans (if_pos rfl)
    · exact hfixed p hp
  · rw [Context.add_labels] at hlow
    exact (hown k (by omega) hhigh).trans (if_neg (by omega))

theorem of_nil (hlays : Lays [] c known c' known') : Lays fixed c known c' known' := by
  obtain ⟨hle, code, own, hcode, hchecked⟩ := hlays
  exact ⟨hle, code, own, hcode, fun said _ => hchecked said (by simp)⟩

/-- Code of one instruction that gives something a value. -/
theorem put {m : Nat} {x : Instr} {o : Operand} (hplain : x.Plain) (hgives : x.gives? = some o)
    (huses : ∀ o, x.Uses o → o ∈ known) : Lays fixed c known (c.add m 0 [x]) (insert o known) :=
  code fun _ _ => ⟨_, .put hplain hgives huses, subset_rfl⟩

end Lays

/-- The code between the sides of a short-circuit operator: its temporary has a value behind it, and
    also where the right side is passed over. -/
theorem lays_shortCircuit {fixed : List (Nat × Set Operand)} {c : Context} {known there : Set Operand}
    {op : String} {n k : Nat} {t l : Temp} (hn : op = "&&" ∧ n = 0 ∨ op ≠ "&&" ∧ n = 1) (hlive : Live known l)
    (hfixed : (k, there) ∈ fixed) (hthere : there ⊆ insert (.temp t) known) :
    Lays fixed c known (c.add 0 n (truthInstr t l ::
      shortCircuit op t ("L" ++ toString k) ("L" ++ toString c.labels))) (insert (.temp t) known) := by
  have hput : ∀ said, Passes (Marks said) known (truthInstr t l) (insert (.temp t) known) := fun said =>
    .put ⟨by simp [truthInstr, Instr.GoesOn], rfl, rfl⟩ rfl
      (Instr.uses_known (by simp [truthInstr]) (by simpa [truthInstr, Instr.sources] using hlive))
  have hresult : Live (insert (.temp t) known) t := by simp [Live]
  rcases hn with ⟨hand, rfl⟩ | ⟨hor, rfl⟩
  · rw [shortCircuit, if_pos hand]
    refine .code fun said hsaid => ⟨_, hput said, _, passes_branch ?_ hresult, subset_rfl⟩
    rwa [hsaid _ hfixed]
  · rw [shortCircuit, if_neg hor, ← List.nil_append (truthInstr t l :: _), ← Context.add_add c 0 1 0 0]
    refine .label (insert (.temp t) known) (.code fun said hsaid => ⟨_, hput said, _,
      passes_branch (hsaid _ List.mem_cons_self).subset hresult, Set.univ, passes_jump ?_, _,
        passes_label (Set.subset_univ _) (hsaid _ List.mem_cons_self).superset, subset_rfl⟩)
    rwa [hsaid _ (List.mem_cons_of_mem _ hfixed)]

/-- What is known includes all variables that have a value in any case. -/
def Settles (full : List (List Symbol)) (s : Sure) (known : Set Operand) : Prop :=
  ∀ v, Has full s v → .var v ∈ known

theorem Settles.mono {full : List (List Symbol)} {s : Sure} {known known' : Set Operand}
    (hsettles : Settles full s known) (hsub : known ⊆ known') : Settles full s known' :=
  fun v hv => hsub (hsettles v hv)

/-- What lowering expressions comes to: code behind which no less is known than before it, and the
    temporaries of the expressions and the variables that then have a value are known. -/
structure Laid (full : List (List Symbol)) (s : Sure) (c : Context) (known : Set Operand) (c' : Context)
    (ts : List Temp) (known' : Set Operand) : Prop where
  sub : known ⊆ known'
  lays : Lays [] c known c' known'
  live : ∀ t ∈ ts, Live known' t
  settles : Settles full s known'

namespace Laid

variable {full : List (List Symbol)} {s s' : Sure} {c c₁ c' : Context} {known known₁ known' : Set Operand}
  {t : Temp} {ts ts' : List Temp} {m : Nat}

theorem refl (hsettles : Settles full s known) : Laid full s c known c [] known :=
  ⟨subset_rfl, .refl, by simp, hsettles⟩

variable (hlaid : Laid full s c known c₁ ts known₁)
include hlaid

theorem trans (hlaid' : Laid full s' c₁ known₁ c' ts' known') : Laid full s' c known c' (ts ++ ts') known' where
  sub := hlaid.sub.trans hlaid'.sub
  lays := hlaid.lays.trans hlaid'.lays
  live t ht := by
    rcases List.mem_append.mp ht with ht | ht
    · exact (hlaid.live t ht).mono hlaid'.sub
    · exact hlaid'.live t ht
  settles := hlaid'.settles

/-- Code behind that of expressions that gives a temporary a value. -/
theorem put {x : Instr} (hplain : x.Plain) (hgives : x.gives? = some (.temp t))
    (huses : ∀ o, x.Uses o → o ∈ known₁) :
    Laid full s c known (c₁.add m 0 [x]) [t] (insert (.temp t) known₁) where
  sub := hlaid.sub.trans (Set.subset_insert _ _)
  lays := hlaid.lays.trans (.put hplain hgives huses)
  live := by simp [Live]
  settles := hlaid.settles.mono (Set.subset_insert _ _)

/-- Code behind that of expressions that hands over their values and gives a temporary one. -/
theorem handOver {index : Nat} {x : Instr} (hplain : x.Plain) (hgives : x.gives? = some (.temp t))
    (huses : ∀ o, x.Uses o → o ∈ known₁) :
    Laid full s c known (c₁.add m 0 (argInstrs index ts ++ [x])) [t] (insert (.temp t) known₁) where
  sub := hlaid.sub.trans (Set.subset_insert _ _)
  lays := hlaid.lays.trans (.code fun _ _ =>
    (checked_args hlaid.live).append ⟨_, .put hplain hgives huses, subset_rfl⟩)
  live := by simp [Live]
  settles := hlaid.settles.mono (Set.subset_insert _ _)

/-- Code behind that of expressions that gives a variable a value. -/
theorem store {v : Temp} {storage : String} (hv : v ∈ ts)
    (hsettles : ∀ w, Has full s' w → Has full s w ∨ w = storage)
    (hlive : ∀ t ∈ ts', t ∈ ts ∨ t.ty = .void) :
    Laid full s' c known (c₁.add m 0 [⟨.store, some (.var storage), some (.temp v), none⟩]) ts'
      (insert (.var storage) known₁) where
  sub := hlaid.sub.trans (Set.subset_insert _ _)
  lays := hlaid.lays.trans (.put ⟨by simp [Instr.GoesOn], rfl, rfl⟩ rfl
    (Instr.uses_known (by simp) (by simpa [Instr.sources] using hlaid.live v hv)))
  live t ht := by
    rcases hlive t ht with ht | hvoid
    · exact (hlaid.live t ht).mono (Set.subset_insert _ _)
    · exact fun hty => absurd hvoid hty
  settles w hw := by
    rcases hsettles w hw with hw | rfl
    · exact .inr (hlaid.settles w hw)
    · exact .inl rfl

/-- Code behind that of expressions that ends the function. -/
theorem leave {x : Instr} (hop : x.op = .ret ∨ x.op = .exit) (huses : ∀ o, x.Uses o → o ∈ known₁) :
    Laid full none c known (c₁.add m 0 [x]) ts' Set.univ where
  sub := Set.subset_univ _
  lays := hlaid.lays.trans (.code fun _ _ => ⟨_, .leave hop huses, subset_rfl⟩)
  live _ _ _ := trivial
  settles _ _ := trivial

/-- Code behind that of expressions that gives nothing a value. -/
theorem pass {xs : List Instr} (hchecked : ∀ said, Checked (Marks said) known₁ xs known₁) (hvoid : t.ty = .void) :
    Laid full s c known (c₁.add m 0 xs) [t] known₁ where
  sub := hlaid.sub
  lays := hlaid.lays.trans (.code fun said _ => hchecked said)
  live := by simp [Live, hvoid]
  settles := hlaid.settles

omit hlaid in
/-- An operator of two operands gives its result a value. -/
theorem operator {op : Op} {l r : Temp} (hlaid : Laid full s c known c₁ [l, r] known₁)
    (hop : (∃ o, op = .binary o) ∨ (∃ o, op = .compare o) ∨ op = .index) :
    Laid full s c known (c₁.add m 0 [⟨op, some (.temp t), some (.temp l), some (.temp r)⟩]) [t]
      (insert (.temp t) known₁) := by
  have hlive : ∀ t', t' = l ∨ t' = r → Live known₁ t' := fun t' ht' => hlaid.live t' (by simpa using ht')
  rcases hop with ⟨o, rfl⟩ | ⟨o, rfl⟩ | rfl
  all_goals
    exact hlaid.put ⟨by simp [Instr.GoesOn], rfl, rfl⟩ rfl
      (Instr.uses_known (by simp) (by simpa [Instr.sources] using hlive))

omit hlaid

section Branches

variable {c₂ c₃ : Context} {known₂ known₃ : Set Operand} {s₂ s₃ : Sure} {b l r y : Temp}

/-- A short-circuit operator knows what its left side knows. -/
theorem shortCircuit {op : String} {n : Nat} (hn : op = "&&" ∧ n = 0 ∨ op ≠ "&&" ∧ n = 1)
    (hleft : Laid full s (c.add 1 1 []) known c₁ [l] known₁)
    (hright : Laid full s₂ (c₁.add 0 n (truthInstr t l ::
      Lower.shortCircuit op t ("L" ++ toString c.labels) ("L" ++ toString c₁.labels)))
        (insert (.temp t) known₁) c₂ [r] known₂) :
    Laid full s c known (c₂.add 0 0 [truthInstr t r,
      labelInstr c.labels]) [t] (insert (.temp t) known₁) where
  sub := hleft.sub.trans (Set.subset_insert _ _)
  lays := by
    have hmiddle := lays_shortCircuit (c := c₁) (t := t) hn (hleft.live l (by simp))
      (List.mem_singleton.mpr (rfl : (c.labels, insert (.temp t) known₁) = _)) subset_rfl
    refine .label _ (((hleft.lays.of_nil.trans hmiddle).trans hright.lays.of_nil).trans (.code fun said hsaid =>
      ⟨_, .put ⟨by simp [truthInstr, Instr.GoesOn], rfl, rfl⟩ rfl (Instr.uses_known (by simp [truthInstr]) ?_), _,
        passes_label (hright.sub.trans (Set.subset_insert _ _)) (hsaid _ List.mem_cons_self).superset, subset_rfl⟩))
    simpa [truthInstr, Instr.sources] using hright.live
  live := by simp [Live]
  settles := hleft.settles.mono (Set.subset_insert _ _)

/-- A condition with one arm knows what its test knows. -/
theorem when (htest : Laid full s c known c₁ [b] known₁)
    (hyes : Laid full s₂ (c₁.add 0 1 [branchInstr c₁.labels b]) known₁ c₂ [y] known₂)
    (hvoid : t.ty = .void) :
    Laid full s c known (c₂.add 1 0 [labelInstr c₁.labels])
      [t] known₁ where
  sub := htest.sub
  lays := by
    refine htest.lays.trans (.label (m := 0) known₁ ?_)
    have hbranch : Lays [(c₁.labels, known₁)] (c₁.add 0 1 []) known₁
        ((c₁.add 0 1 []).add 0 0 [branchInstr c₁.labels b]) known₁ :=
      .code fun said hsaid =>
        ⟨_, passes_branch (hsaid _ List.mem_cons_self).subset (htest.live b (by simp)), subset_rfl⟩
    rw [Context.add_add] at hbranch
    exact (hbranch.trans hyes.lays.of_nil).trans (.code fun said hsaid =>
      ⟨_, passes_label hyes.sub (hsaid _ List.mem_cons_self).superset, subset_rfl⟩)
  live := by simp [Live, hvoid]
  settles := htest.settles

/-- A condition with two arms knows what both arms know, and its own temporary. -/
theorem cond (hapart : ScopeTable.Apart full) (htest : Laid full s c known c₁ [b] known₁)
    (hyes : Laid full s₂ (c₁.add 0 2 [branchInstr c₁.labels b]) known₁ c₂ [y] known₂)
    (hno : Laid full s₃ (c₂.add 1 0 [moveInstr t (.temp y),
      jumpInstr (c₁.labels + 1),
      labelInstr c₁.labels]) known₁ c₃ [r] known₃) :
    Laid full (s₂.meet s₃) c known (c₃.add 0 0 [moveInstr t (.temp r),
      labelInstr (c₁.labels + 1)]) [t]
      (insert (.temp t) known₂ ∩ insert (.temp t) known₃) where
  sub := Set.subset_inter (htest.sub.trans (hyes.sub.trans (Set.subset_insert _ _)))
    (htest.sub.trans (hno.sub.trans (Set.subset_insert _ _)))
  lays := by
    refine htest.lays.trans (.label (m := 0) known₁
      (.label (m := 0) (insert (.temp t) known₂ ∩ insert (.temp t) known₃) ?_))
    have hbranch : Lays [(c₁.labels + 1, insert (.temp t) known₂ ∩ insert (.temp t) known₃),
        (c₁.labels, known₁)]
        ((c₁.add 0 1 []).add 0 1 []) known₁
        (((c₁.add 0 1 []).add 0 1 []).add 0 0 [branchInstr c₁.labels b]) known₁ :=
      .code fun said hsaid =>
        ⟨_, passes_branch (hsaid (_, known₁) (by simp)).subset (htest.live b (by simp)), subset_rfl⟩
    simp only [Context.add_add] at hbranch ⊢
    have hmove : ∀ (said : Nat → Set Operand) (known : Set Operand) (y : Temp), Live known y →
        Passes (Marks said) known (moveInstr t (.temp y)) (insert (.temp t) known) :=
      fun said known y hlive => .put ⟨by simp [Instr.GoesOn], rfl, rfl⟩ rfl
        (Instr.uses_known (by simp) (by simpa [Instr.sources] using hlive))
    refine ((hbranch.trans hyes.lays.of_nil).trans (.trans (.code fun said hsaid => ?_) hno.lays.of_nil)).trans
      (.code fun said hsaid => ?_)
    · exact ⟨_, hmove said known₂ y (hyes.live y (by simp)), Set.univ,
        passes_jump ((hsaid _ List.mem_cons_self).subset.trans Set.inter_subset_left), _,
          passes_label (Set.subset_univ _) (hsaid (_, known₁) (by simp)).superset, subset_rfl⟩
    · exact ⟨_, hmove said known₃ r (hno.live r (by simp)), _,
        passes_label Set.inter_subset_right (hsaid _ List.mem_cons_self).superset, subset_rfl⟩
  live := by simp [Live]
  settles v hv := by
    obtain ⟨hv₂, hv₃⟩ := (Has.meet_iff hapart).mp hv
    exact ⟨.inr (hyes.settles v hv₂), .inr (hno.settles v hv₃)⟩

/-- A loop knows what its test knows. -/
theorem loop
    (htest : Laid full s (c.add 0 2 [labelInstr c.labels])
      known c₁ [b] known₁)
    (hbody : Laid full s₂ (c₁.add 0 0 [branchInstr (c.labels + 1) b]) known₁ c₂ [r] known₂)
    (hvoid : t.ty = .void) :
    Laid full s c known (c₂.add 1 0 [jumpInstr c.labels,
      labelInstr (c.labels + 1)]) [t] known₁ where
  sub := htest.sub
  lays := by
    refine .label (m := 0) known (.label (m := 0) known₁ ?_)
    have htop : Lays [(c.labels + 1, known₁), (c.labels, known)] ((c.add 0 1 []).add 0 1 []) known
        (((c.add 0 1 []).add 0 1 []).add 0 0 [labelInstr c.labels]) known :=
      .code fun said hsaid => ⟨_, passes_label subset_rfl (hsaid (_, known) (by simp)).superset, subset_rfl⟩
    simp only [Context.add_add] at htop ⊢
    refine (htop.trans htest.lays.of_nil).trans (.trans (.code fun said hsaid => ?_)
      (hbody.lays.of_nil.trans (.code fun said hsaid => ?_)))
    · exact ⟨_, passes_branch (hsaid _ List.mem_cons_self).subset (htest.live b (by simp)), subset_rfl⟩
    · exact ⟨Set.univ, passes_jump ((hsaid (_, known) (by simp)).subset.trans (htest.sub.trans hbody.sub)), _,
        passes_label (Set.subset_univ _) (hsaid _ List.mem_cons_self).superset, subset_rfl⟩
  live := by simp [Live, hvoid]
  settles := htest.settles

end Branches

end Laid

variable {f : Func} {sigs : Signatures} {full : List (List Symbol)} {s : Sure} {e : Expr} {es : List Expr}
  {c c₁ c' : Context} {t : Temp} {ts : List Temp} {known known₁ : Set Operand}

theorem Finishes.settledAll {names : Tree.Names} (hfinish : Finishes sigs e es ts c t c')
    (hsettled : e.settled names s = true) : settledAll es names s = true := by
  cases hfinish <;> simp_all [Expr.settled, Tree.settledAll]

/-- Behind its operands, an expression gives its temporary a value, and a variable if it stores to
    one. -/
theorem Finishes.laid (hfinish : Finishes sigs e es ts c₁ t c') (hoperands : Lowered sigs es c ts c₁)
    (hfree : GotoFree e.nodes) (hset : Setting f full c c') (hsettled : e.settled c.scopes.names s = true)
    (hlaid : Laid full (sureAll es c.scopes.names s) c known c₁ ts known₁) :
    ∃ known', Laid full (e.sure c.scopes.names s) c known c' [t] known' := by
  cases hfinish with
  | void => exact ⟨_, hlaid.pass (fun _ => subset_rfl) rfl⟩
  | constant k _ =>
    have hput : Laid full s c known (c₁.add 1 0
        [moveInstr ⟨c₁.temps, k.ty⟩ (.const k)])
        [⟨c₁.temps, k.ty⟩] _ :=
      hlaid.put ⟨by simp [Instr.GoesOn], rfl, rfl⟩ rfl (Instr.uses_known (by simp) (by simp [Instr.sources]))
    exact ⟨_, hput.sub, hput.lays, hput.live, hput.settles⟩
  | var symbol hlookup =>
    cases hoperands
    rw [Expr.settled, Has.has_iff hset.of_add.covers hset.apart hlookup] at hsettled
    refine ⟨_, hlaid.put ⟨by simp [Instr.GoesOn], rfl, rfl⟩ rfl fun o huses => ?_⟩
    cases o with
    | var v =>
      cases huses.2
      exact hlaid.settles _ hsettled
    | _ => simp [Instr.Uses, Instr.sources] at huses
  | define v storage scopes hdeclare =>
    have hdeclared : c₁.Grows 0 { c₁ with scopes } [_] := .declare hdeclare
    have hlaid' : Laid full _ c known { c₁ with scopes } [v] known₁ :=
      ⟨hlaid.sub, hlaid.lays, hlaid.live, hlaid.settles⟩
    refine ⟨_, hlaid'.store (by simp) (fun w hw => ?_) (by simp)⟩
    rw [Expr.sure, ← hoperands.expr_grows.1.names, ← hdeclared.names] at hw
    exact (Has.gain_iff hset.of_add.covers hset.apart (ScopeTable.lookup_of_declare hdeclare)).mp hw
  | assign v symbol hlookup =>
    refine ⟨_, hlaid.store (by simp) (fun w hw => ?_) (by simp)⟩
    rw [Expr.sure, ← hoperands.expr_grows.1.names] at hw
    exact (Has.gain_iff hset.of_add.covers hset.apart hlookup).mp hw
  | array | call _ _ _ =>
    exact ⟨_, hlaid.handOver ⟨by simp [Instr.GoesOn], rfl, rfl⟩ rfl
      (Instr.uses_known (by simp) (by simp [Instr.sources]))⟩
  | binary l r code hop hcode =>
    rw [Expr.sure, if_neg hop]
    exact ⟨_, hlaid.operator ((cases_of_binaryOp? hcode).imp_right .inl)⟩
  | unary a code _ _ =>
    exact ⟨_, hlaid.put ⟨by simp [Instr.GoesOn], rfl, rfl⟩ rfl
      (Instr.uses_known (by simp) (by simpa [Instr.sources] using hlaid.live))⟩
  | update a code name symbol _ _ _ =>
    rw [Context.add_cons]
    have hput : Laid full _ c known (c₁.add 1 0
        [⟨.unary code, some (.temp ⟨c₁.temps, resultTy (.unary code)⟩),
        some (.temp a), none⟩]) [⟨c₁.temps, resultTy (.unary code)⟩] _ :=
      hlaid.put ⟨by simp [Instr.GoesOn], rfl, rfl⟩ rfl
        (Instr.uses_known (by simp) (by simpa [Instr.sources] using hlaid.live))
    exact ⟨_, hput.store (by simp) (fun _ => .inl) (by simp)⟩
  | retNothing _ =>
    exact ⟨_, hlaid.leave (.inl rfl) (Instr.uses_known (by simp) (by simp [Instr.sources, Live]))⟩
  | exitNothing _ =>
    exact ⟨_, hlaid.leave (.inr rfl) (Instr.uses_known (by simp) (by simp [Instr.sources]))⟩
  | ret v _ =>
    exact ⟨_, hlaid.leave (.inl rfl) (Instr.uses_known (by simp) (by simpa [Instr.sources] using hlaid.live))⟩
  | exit v _ =>
    exact ⟨_, hlaid.leave (.inr rfl) (Instr.uses_known (by simp) (by simpa [Instr.sources] using hlaid.live))⟩
  | index a i => exact ⟨_, hlaid.operator (.inr (.inr rfl))⟩
  | setIndex a i v =>
    exact ⟨_, hlaid.pass (fun _ => ⟨_, .pass ⟨by simp [Instr.GoesOn], rfl, rfl⟩
      (Instr.uses_known (by simp) (by simpa [Instr.sources] using hlaid.live)), subset_rfl⟩) rfl⟩
  | label => exact ⟨_, hlaid.pass (fun _ => ⟨_, passes_userLabel, subset_rfl⟩) rfl⟩
  | goto => exact absurd List.mem_cons_self (hfree _)

/-- Lowered code knows what it uses if the variables of the expressions are settled. -/
theorem Lowered.laid (hlowered : Lowered sigs es c ts c') (hfree : GotoFree (nodesAll es))
    (hset : Setting f full c c') (hsettled : settledAll es c.scopes.names s = true) (hsettles : Settles full s known) :
    ∃ known', Laid full (sureAll es c.scopes.names s) c known c' ts known' := by
  induction hlowered generalizing full s known with
    try simp only [nodesAll_singleton, settledAll_singleton, sureAll_singleton] at *
  | nil => exact ⟨known, .refl hsettles⟩
  | cons hfirst hrest ihfirst ihrest =>
    have hgrows := hfirst.expr_grows.1
    rw [settledAll, Bool.and_eq_true] at hsettled
    obtain ⟨known₁, hlaid₁⟩ := ihfirst hfree.part (hset.before hrest.grows.1) hsettled.1 hsettles
    obtain ⟨known₂, hlaid₂⟩ := ihrest (hfree.part fun _ => List.mem_append_right _) (hset.behind hgrows)
      (by rw [hgrows.names]; exact hsettled.2) hlaid₁.settles
    rw [sureAll, ← hgrows.names]
    exact ⟨known₂, hlaid₁.trans hlaid₂⟩
  | strict _ _ _ hoperands hfinish ih =>
    obtain ⟨known₁, hlaid⟩ := ih (hfree.part fun x hx => by simp [hfinish.nodes, hx]) (hset.operands hfinish)
      (hfinish.settledAll hsettled) hsettles
    exact hfinish.laid hoperands hfree hset hsettled hlaid
  | block ts c c₁ scopes n hbody hleave hlast ih =>
    obtain ⟨added, _, hset', _⟩ := hset.of_add.block hbody.grows.1 hleave
    have hlength := (hset.before (Lowered.block ts c c₁ scopes n hbody hleave hlast).grows.1).covers.length_eq
    have hinside : Settles (added :: full) (s.inside c.scopes.names) known := fun v hv =>
      hsettles v ((Has.inside_iff (by simp [ScopeTable.names, hlength])).mp hv)
    rw [Expr.settled] at hsettled
    rw [Expr.sure]
    obtain ⟨known', hlaid⟩ := ih hfree.part hset' hsettled hinside
    have hlays : Lays [] c known { c₁ with scopes } known' := hlaid.lays
    refine ⟨known', hlaid.sub, hlays.trans (.code fun _ _ => subset_rfl), List.forall_mem_singleton.mpr ?_,
      fun v hv => hlaid.settles v hv.cons⟩
    rcases hlast with ⟨_, hlast⟩ | ⟨_, _, rfl⟩
    · exact hlaid.live _ (List.mem_of_getLast? hlast)
    · simp [Live]
  | shortCircuit l r c c₁ c₂ n hop hn hleft hright ihleft ihright =>
    have hgrows := hleft.expr_grows.1
    have hstart : c.Grows 0 (c.add 1 1 []) [] := .addPlain (by simp)
    obtain ⟨hset₁, _, hset₂⟩ := (hset.of_add.behind hstart).split (hgrows.of_le (Nat.zero_le _))
      (.shortCircuit hn (Nat.zero_le _)) hright
    rw [Expr.settled, Bool.and_eq_true] at hsettled
    obtain ⟨known₁, hlaid₁⟩ := ihleft hfree.part hset₁ hsettled.1 hsettles
    obtain ⟨known₂, hlaid₂⟩ := ihright hfree.part hset₂
      (by rw [Context.add_scopes, hgrows.names]; exact hsettled.2)
        (hlaid₁.settles.mono (Set.subset_insert (.temp ⟨c.temps, .bool⟩) _))
    rw [Expr.sure, if_pos hop]
    exact ⟨_, hlaid₁.shortCircuit hn hlaid₂⟩
  | when b y c c₁ c₂ hno htest hyes ihtest ihyes =>
    have hgrows := htest.expr_grows.1
    obtain ⟨hset₁, _, hset₂⟩ := hset.of_add.split hgrows (.addPlain (by simp)) hyes
    rw [Expr.settled, Bool.and_eq_true, Bool.and_eq_true] at hsettled
    obtain ⟨⟨hsettled₁, hsettled₂⟩, _⟩ := hsettled
    obtain ⟨known₁, hlaid₁⟩ := ihtest hfree.part hset₁ hsettled₁ hsettles
    obtain ⟨known₂, hlaid₂⟩ := ihyes hfree.part hset₂
      (by rw [Context.add_scopes, hgrows.names]; exact hsettled₂) hlaid₁.settles
    rw [Expr.sure, if_pos hno]
    exact ⟨_, hlaid₁.when hlaid₂ rfl⟩
  | cond b y z c c₁ c₂ c₃ hno htest hyes hother ihtest ihyes ihother =>
    have hgrows := htest.expr_grows.1
    have hgrows' := hyes.expr_grows.1
    obtain ⟨⟨hset₁, _, hset₂⟩, _, hset₃⟩ := hset.of_add.arms htest hyes hother
    rw [Expr.settled, Bool.and_eq_true, Bool.and_eq_true] at hsettled
    obtain ⟨⟨hsettled₁, hsettled₂⟩, hsettled₃⟩ := hsettled
    obtain ⟨known₁, hlaid₁⟩ := ihtest hfree.part hset₁ hsettled₁ hsettles
    obtain ⟨known₂, hlaid₂⟩ := ihyes hfree.part hset₂
      (by rw [Context.add_scopes, hgrows.names]; exact hsettled₂) hlaid₁.settles
    obtain ⟨known₃, hlaid₃⟩ := ihother hfree.part hset₃
      (by rw [Context.add_scopes, hgrows'.names, Context.add_scopes, hgrows.names]; exact hsettled₃) hlaid₁.settles
    rw [Expr.sure, if_neg (by simp [hno]), ← hgrows.names]
    rw [Context.add_scopes, hgrows'.names, Context.add_scopes] at hlaid₃
    exact ⟨_, hlaid₁.cond hset.apart hlaid₂ hlaid₃⟩
  | loop b r c c₁ c₂ htest hbody ihtest ihbody =>
    have hgrows := htest.expr_grows.1
    have hstart : c.Grows 0 (c.add 0 2 [labelInstr c.labels]) [] :=
      .addLabel (by simp [Places]) (Nat.zero_le c.labels) (by omega)
    obtain ⟨hset₁, _, hset₂⟩ := (hset.of_add.behind hstart).split hgrows (.addPlain (by simp)) hbody
    rw [Expr.settled, Bool.and_eq_true] at hsettled
    obtain ⟨known₁, hlaid₁⟩ := ihtest hfree.part hset₁ hsettled.1 hsettles
    obtain ⟨known₂, hlaid₂⟩ := ihbody hfree.part hset₂
      (by rw [Context.add_scopes, hgrows.names]; exact hsettled.2) hlaid₁.settles
    rw [Expr.sure]
    exact ⟨_, hlaid₁.loop hlaid₂ rfl⟩

end TreeCompiler.Lower
