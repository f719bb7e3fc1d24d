import TreeCompiler.Proofs.Code.Must
import TreeCompiler.Proofs.Lower.Growth

namespace TreeCompiler.Lower

open Code
open TreeCompiler.Tree (Expr Ending Env EvalM)

/-- An outcome of the code is how the call of a function ends. -/
def Shows (o : Outcome) : Ending → Prop
  | .returned v => ∃ w, o = .returned w ∧ ∀ x, v = some x → w = x
  | .exited code => o = .exited code

/-- Wherever an evaluation has a result, the code does the same from an activation on: it comes to
    an activation with the property `post` of the result, or it ends as the call ends. -/
def Follows {α : Type} (address : Bytes → Word) (frees : Func → Nat → Bool) (p : Code.Program) (f : Func)
    (a : Activation) (m : EvalM α) (ρ : Env) (post : α → Env → Activation → Prop) : Prop :=
  ∀ r, m.run? ρ = some r → Must address frees p f a (fun a' => ∃ x ρ', r = .ok (x, ρ') ∧ post x ρ' a')
    fun o _ => ∃ e, r = .error e ∧ Shows o e

namespace Follows

variable {α β : Type} {address : Bytes → Word} {frees : Func → Nat → Bool} {p : Code.Program} {f : Func}
  {a : Activation} {m : EvalM α} {ρ : Env} {post : α → Env → Activation → Prop}

variable {post' : β → Env → Activation → Prop}

variable {k : α → EvalM β} {v : Option α} {g : Env → Option Env}

theorem bind
    (hm : Follows address frees p f a m ρ post)
    (hk : ∀ x ρ' a', post x ρ' a' → Follows address frees p f a' (k x) ρ' post') :
    Follows address frees p f a (m >>= k) ρ post' := by
  intro r hr
  rcases EvalM.run?_bind_eq_some_iff.mp hr with ⟨e, he, rfl⟩ | ⟨x, ρ', hx, hr⟩
  · refine (hm _ he).bind (fun a' ha' => ?_) fun o heap ho => ?_
    · obtain ⟨x, ρ', hx, _⟩ := ha'
      cases hx
    · obtain ⟨e', he', ho⟩ := ho
      cases he'
      exact ⟨e, rfl, ho⟩
  · refine (hm _ hx).bind (fun a' ha' => ?_) fun o heap ho => ?_
    · obtain ⟨x', ρ'', hx', hpost⟩ := ha'
      cases hx'
      exact hk x ρ' a' hpost r hr
    · obtain ⟨e, he, _⟩ := ho
      cases he

theorem pure {x : α} (hpost : post x ρ a) : Follows address frees p f a (Pure.pure x) ρ post := by
  intro r hr
  cases hr
  exact .here ⟨x, ρ, rfl, hpost⟩

/-- The code may go on behind an evaluation. -/
theorem andThen {post' : α → Env → Activation → Prop} (hm : Follows address frees p f a m ρ post)
    (hk : ∀ x ρ' a', post x ρ' a' → Follows address frees p f a' (Pure.pure x) ρ' post') :
    Follows address frees p f a m ρ post' := by
  have hbind := hm.bind hk
  rwa [bind_pure] at hbind

theorem stuck : Follows address frees p f a EvalM.stuck ρ post := by
  intro r hr
  cases hr

theorem ofOption (hpost : ∀ x, v = some x → post x ρ a) :
    Follows address frees p f a (EvalM.ofOption v) ρ post := by
  cases v with
  | none => exact stuck
  | some x => exact pure (hpost x rfl)

theorem bindOption
    (hk : ∀ x, v = some x → Follows address frees p f a (k x) ρ post') :
    Follows address frees p f a (EvalM.ofOption v >>= k) ρ post' := by
  cases v with
  | none => exact stuck
  | some x => exact hk x rfl

/-- A value that must be there. -/
theorem word {m : EvalM (Option Word)} {post : Option Word → Env → Activation → Prop}
    (hm : Follows address frees p f a m ρ post) :
    Follows address frees p f a (EvalM.word m) ρ fun w => post (some w) :=
  hm.bind fun _ _ _ hpost => ofOption fun _ hx => hx ▸ hpost

theorem lookup {name : String} {post : Word → Env → Activation → Prop}
    (hpost : ∀ w, ρ.get? name = some w → post w ρ a) :
    Follows address frees p f a (EvalM.lookup name) ρ post := by
  intro r hr
  obtain ⟨w, hw, rfl⟩ := Option.map_eq_some_iff.mp hr
  exact .here ⟨w, ρ, rfl, hpost w hw⟩

theorem update {post : Unit → Env → Activation → Prop}
    (hpost : ∀ ρ', g ρ = some ρ' → post () ρ' a) :
    Follows address frees p f a (EvalM.update g) ρ post := by
  intro r hr
  obtain ⟨ρ', hρ', rfl⟩ := Option.map_eq_some_iff.mp hr
  exact .here ⟨(), ρ', rfl, hpost ρ' hρ'⟩

theorem bindUpdate {k : Unit → EvalM β}
    (hk : ∀ ρ', g ρ = some ρ' → Follows address frees p f a (k ()) ρ' post') :
    Follows address frees p f a (EvalM.update g >>= k) ρ post' := by
  have hupdate : Follows address frees p f a (EvalM.update g) ρ fun _ ρ' a' => g ρ = some ρ' ∧ a' = a :=
    update fun ρ' hρ' => ⟨hρ', rfl⟩
  refine hupdate.bind fun _ ρ' a' hpost => ?_
  obtain ⟨hρ', rfl⟩ := hpost
  exact hk ρ' hρ'

theorem finish {e : Ending} (hend : Must address frees p f a (fun _ => False) fun o _ => Shows o e) :
    Follows address frees p f a (EvalM.finish e) ρ post := by
  intro r hr
  cases hr
  exact hend.bind (fun _ hnever => hnever.elim) fun o heap ho => ⟨e, rfl, ho⟩

/-- The code may do a step of its own before it follows the evaluation. -/
theorem goto {a' : Activation} (hnext : a.next? address f = some (.goto a'))
    (hm : Follows address frees p f a' m ρ post) : Follows address frees p f a m ρ post :=
  fun r hr => .goto hnext (hm r hr)

theorem mono {post' : α → Env → Activation → Prop} (hm : Follows address frees p f a m ρ post)
    (hpost : ∀ x ρ' a', post x ρ' a' → post' x ρ' a') : Follows address frees p f a m ρ post' := by
  refine fun r hr => (hm r hr).bind (fun a' ha' => ?_) fun o heap ho => ho
  obtain ⟨x, ρ', hx, hpost'⟩ := ha'
  exact .here ⟨x, ρ', hx, hpost x ρ' a' hpost'⟩

end Follows

/-- No code places a label of a number. -/
def Context.Lacks (c : Context) (k : Nat) : Prop :=
  ∀ x ∈ c.code.toList, ¬ Places k x

/-- All labels that are placed were handed out. -/
def Context.Neat (c : Context) : Prop :=
  ∀ k, c.labels ≤ k → c.Lacks k

namespace Context

variable {c c' : Context} {base k m n : Nat} {names : List String} {xs : List Instr}

theorem Lacks.of_grows (hlacks : c.Lacks k) (hgrows : c.Grows base c' names)
    (hk : k < base ∨ c'.labels ≤ k) : c'.Lacks k := by
  obtain ⟨added, hadded, hplaced⟩ := hgrows.code
  intro x hx hplaces
  rw [hadded] at hx
  rcases List.mem_append.mp hx with hx | hx
  · exact hlacks x hx hplaces
  · obtain ⟨hlow, hhigh⟩ := hplaced x hx k hplaces
    omega

theorem Lacks.add (hlacks : c.Lacks k) (hxs : ∀ x ∈ xs, ¬ Places k x) : (c.add m n xs).Lacks k := by
  intro x hx
  rw [toList_add_code] at hx
  rcases List.mem_append.mp hx with hx | hx
  · exact hlacks x hx
  · exact hxs x hx

/-- Code that places no label, or another one only. -/
theorem Lacks.addOther {j : Nat} (hlacks : c.Lacks k) (hne : k ≠ j)
    (hxs : ∀ x ∈ xs, x.op = .label → Places j x) :
    (c.add m n xs).Lacks k :=
  hlacks.add fun x hx hplaces => hne (hplaces.eq (hxs x hx hplaces.1))

theorem Neat.of_grows (hneat : c.Neat) (hgrows : c.Grows base c' names) : c'.Neat := by
  intro k hk
  exact (hneat k (Nat.le_trans hgrows.labels hk)).of_grows hgrows (.inr hk)

end Context

/-- Where code stands in a function while it is made: it is the start of the function's code up to
    some context, and the scopes have all symbols that they get. -/
structure Setting (f : Func) (full : List (List Symbol)) (c c' : Context) : Prop where
  code : c'.code.toList <+: f.code
  neat : c.Neat
  tidy : c.scopes.Tidy
  covers : ScopeTable.Covers c'.scopes.taken full c'.scopes.scopes
  apart : ScopeTable.Apart full

namespace Setting

variable {f : Func} {full : List (List Symbol)} {c c' c₁ : Context} {base : Nat} {names : List String}

/-- The setting of what is lowered last. -/
theorem behind (hset : Setting f full c c') (hgrows : c.Grows base c₁ names) : Setting f full c₁ c' := by
  obtain ⟨_, _, hscopes⟩ := hgrows.scopes
  exact ⟨hset.code, hset.neat.of_grows hgrows, hscopes.tidy hset.tidy, hset.covers, hset.apart⟩

/-- The setting of what is lowered first. -/
theorem before (hset : Setting f full c c') (hgrows : c₁.Grows base c' names) : Setting f full c c₁ := by
  obtain ⟨_, _, hscopes⟩ := hgrows.scopes
  obtain ⟨added, hadded, _⟩ := hgrows.code
  exact ⟨(hadded ▸ List.prefix_append _ _ : c₁.code.toList <+: c'.code.toList).trans hset.code,
    hset.neat, hset.tidy, hset.covers.of_grows hscopes, hset.apart⟩

/-- The setting of what is lowered before code is added. -/
theorem of_add {m n : Nat} {xs : List Instr} (hset : Setting f full c (c₁.add m n xs)) : Setting f full c c₁ :=
  ⟨(Context.toList_add_code c₁ m n xs ▸ List.prefix_append _ _ : c₁.code.toList <+: _).trans hset.code,
    hset.neat, hset.tidy, hset.covers, hset.apart⟩

variable {sigs : Signatures}

variable {es : List Expr} {ts : List Temp} {t : Temp}

/-- The setting of what is lowered before and behind some code. -/
theorem split {m n : Nat} {xs : List Instr}
    (hset : Setting f full c c') (hgrows : c.Grows base c₁ names) (hadd : c₁.Grows base (c₁.add m n xs) [])
    (hlowered : Lowered sigs es (c₁.add m n xs) ts c') :
    Setting f full c c₁ ∧ (c₁.add m n xs).code.toList <+: f.code ∧ Setting f full (c₁.add m n xs) c' :=
  have hset₁ := hset.before hlowered.grows.1
  ⟨hset₁.of_add, hset₁.code, (hset.behind hgrows).behind hadd⟩

/-- The settings of the test and the arms of a condition, and the code behind the test and the first arm. -/
theorem arms {test yes no : Expr} {b y z : Temp} {c₂ c₃ : Context} (hset : Setting f full c c₃)
    (htest : Lowered sigs [test] c [b] c₁)
    (hyes : Lowered sigs [yes] (c₁.add 0 2 [branchInstr c₁.labels b]) [y] c₂)
    (hno : Lowered sigs [no] (c₂.add 1 0 [moveInstr t (.temp y),
      jumpInstr (c₁.labels + 1),
      labelInstr c₁.labels]) [z] c₃) :
    (Setting f full c c₁ ∧ (c₁.add 0 2 [branchInstr c₁.labels b]).code.toList <+: f.code ∧
      Setting f full (c₁.add 0 2 [branchInstr c₁.labels b]) c₂) ∧
      (c₂.add 1 0 [moveInstr t (.temp y), jumpInstr (c₁.labels + 1),
        labelInstr c₁.labels]).code.toList <+: f.code ∧
        Setting f full (c₂.add 1 0 [moveInstr t (.temp y), jumpInstr (c₁.labels + 1),
          labelInstr c₁.labels]) c₃ := by
  have hlabels := hyes.expr_grows.1.labels
  rw [Context.add_labels] at hlabels
  have hbranch : c₁.Grows 0 (c₁.add 0 2 [branchInstr c₁.labels b]) [] := .addPlain (by simp)
  have htest' := htest.expr_grows.1.of_le (Nat.zero_le _)
  obtain ⟨hset', hcode, hset₃⟩ := hset.split
    ((htest'.trans hbranch).trans (hyes.expr_grows.1.of_le (Nat.zero_le _)))
    (.addLabel (k := c₁.labels) (by simp [Places]) (Nat.zero_le _) (by omega)) hno
  exact ⟨hset'.split htest' hbranch hyes, hcode, hset₃⟩

/-- The setting of the operands of an expression. -/
theorem operands {e : Expr}
    (hset : Setting f full c c') (hfinish : Finishes sigs e es ts c₁ t c') : Setting f full c c₁ := by
  obtain ⟨_, hgrows, _⟩ := hfinish.grows 0
  exact hset.before hgrows

/-- The setting of the statements of a block: they have a scope of their own, with new storage. -/
theorem block {scopes : ScopeTable} (hset : Setting f full c { c₁ with scopes })
    (hgrows : Context.Grows base { c with scopes := c.scopes.enter } c₁ names)
    (hleave : c₁.scopes.leave = .ok scopes) :
    ∃ added, added.map Symbol.name = names ∧ Setting f (added :: full) { c with scopes := c.scopes.enter } c₁ ∧
      ∀ s ∈ added, s.storage ∉ c.scopes.taken ∧ s.storage ∈ scopes.taken := by
  obtain ⟨added, hnames, hscopes⟩ := hgrows.scopes
  obtain ⟨hapart, hcovers⟩ := hset.apart.block hset.tidy hscopes hleave hset.covers
  have htaken := (hscopes.block hleave).2.1
  exact ⟨added, hnames, ⟨hset.code, hset.neat, ⟨by simpa [ScopeTable.enter] using hset.tidy.names,
    by simpa [ScopeTable.enter] using hset.tidy.taken⟩, hcovers, hapart⟩,
      fun s hs => ⟨hscopes.fresh s hs, htaken ▸ hscopes.taken s hs⟩⟩

end Setting

variable {f : Func} {c : Context} {m n : Nat} {xs : List Instr}

variable {i k : Nat} {x : Instr}

/-- The instruction at a place of the code. -/
theorem getElem?_of_add
    (hcode : (c.add m n xs).code.toList <+: f.code) (hx : xs[i]? = some x) :
    f.code[c.code.size + i]? = some x := by
  obtain ⟨behind, hbehind⟩ := hcode
  obtain ⟨hi, rfl⟩ := List.getElem?_eq_some_iff.mp hx
  rw [← hbehind, Context.toList_add_code, List.append_assoc,
    List.getElem?_append_right (by simp), List.getElem?_append_left (by simpa using hi)]
  simp

/-- A label is found where it was placed first. -/
theorem labelIndex?_of_add
    (hcode : (c.add m n xs).code.toList <+: f.code) (hlacks : c.Lacks k) (hx : xs[i]? = some x)
    (hplaces : Places k x) (hbefore : ∀ y ∈ xs.take i, ¬ Places k y) :
    f.labelIndex? ("L" ++ toString k) = some (c.code.size + i) := by
  obtain ⟨behind, hbehind⟩ := hcode
  obtain ⟨hi, rfl⟩ := List.getElem?_eq_some_iff.mp hx
  have hsplit : f.code = (c.code.toList ++ xs.take i) ++ (xs[i] :: (xs.drop (i + 1) ++ behind)) := by
    rw [← hbehind, Context.toList_add_code, List.append_assoc, List.append_assoc, ← List.cons_append,
      List.getElem_cons_drop, ← List.append_assoc (xs.take i), List.take_append_drop]
  have hnone : (c.code.toList ++ xs.take i).findIdx?
      (fun x => x.op = .label ∧ x.dst = some (.label ("L" ++ toString k))) = none := by
    rw [List.findIdx?_eq_none_iff]
    intro y hy
    refine decide_eq_false fun hplaced => ?_
    rcases List.mem_append.mp hy with hy | hy
    · exact hlacks y hy hplaced
    · exact hbefore y hy hplaced
  rw [Func.labelIndex?, hsplit, List.findIdx?_append, hnone, List.findIdx?_cons,
    if_pos (by rw [decide_eq_true_eq]; exact hplaces)]
  simp [Nat.min_eq_left (Nat.le_of_lt hi), Nat.add_comm]

/-- A label is found where it is, and it is there. -/
theorem label_of_add {ys : List Instr}
    (hcode : (c.add m n (xs ++ labelInstr k :: ys)).code.toList <+:
      f.code) (hlacks : c.Lacks k) (hxs : ∀ x ∈ xs, ¬ Places k x) :
    f.labelIndex? ("L" ++ toString k) = some (c.code.size + xs.length) ∧
      f.code[c.code.size + xs.length]? = some (labelInstr k) := by
  have hlabel : (xs ++ labelInstr k :: ys)[xs.length]? =
      some (labelInstr k : Instr) := by simp
  exact ⟨labelIndex?_of_add hcode hlacks hlabel ⟨rfl, rfl⟩ (by simpa using hxs), getElem?_of_add hcode hlabel⟩

/-- Temporaries with small numbers hold the same. -/
def Keeps (n : Nat) (a a' : Activation) : Prop :=
  ∀ s : Temp, s.id < n → a'.store (.temp s) = a.store (.temp s)

namespace Keeps

variable {n n' : Nat} {a a' a'' : Activation}

theorem refl (n : Nat) (a : Activation) : Keeps n a a :=
  fun _ _ => rfl

theorem trans (hkeeps : Keeps n a a') (hkeeps' : Keeps n' a' a'') (hle : n ≤ n') : Keeps n a a'' :=
  fun s hs => (hkeeps' s (by omega)).trans (hkeeps s hs)

variable {w : Word}

theorem stepPut_temp {t : Temp} (hkeeps : Keeps n a a') (ht : (n : Int) ≤ t.id) :
    Keeps n a (a'.stepPut (some (.temp t)) w) := by
  intro s hs
  rw [Activation.stepPut_store, Store.put_ne, hkeeps s hs]
  rintro heq
  cases heq
  omega

theorem stepPut_var {storage : String} (hkeeps : Keeps n a a') :
    Keeps n a (a'.stepPut (some (.var storage)) w) := by
  intro s hs
  rw [Activation.stepPut_store, Store.put_ne _ _ (by simp), hkeeps s hs]

end Keeps

/-- An activation stands behind the code of a context, where nothing is handed over, the variables
    hold what they hold in the evaluation, and names stand for the variables that the scopes of the
    context tell. -/
structure Stands (full : List (List Symbol)) (c : Context) (ρ : Env) (a : Activation) : Prop where
  index : a.index = c.code.size
  args : a.args = []
  agrees : Agrees a.store full ρ
  names : ρ.Matches (ScopeTable.namesOf full) c.scopes.names

/-- What holds behind the code of an expression: its value is in its temporary, and temporaries
    that were handed out before are kept. -/
structure Done (full : List (List Symbol)) (c c' : Context) (t : Temp) (a : Activation) (v : Option Word)
    (ρ : Env) (a' : Activation) : Prop where
  stands : Stands full c' ρ a'
  value : ∀ w, v = some w → a'.store (.temp t) = w
  keeps : Keeps c.temps a a'

namespace Stands

variable {full : List (List Symbol)} {c : Context} {ρ : Env} {a : Activation} {x : Instr} {m n : Nat}

variable (hstands : Stands full c ρ a)
include hstands

/-- Behind an instruction that gave a temporary a value. -/
theorem stepPut_temp {t : Temp} {w : Word} : Stands full (c.add m n [x]) ρ (a.stepPut (some (.temp t)) w) where
  index := by simp [Activation.stepPut, hstands.index]
  args := hstands.args
  agrees := hstands.agrees.of_keeps fun s _ => by
    rw [Activation.stepPut_store, Store.put_ne _ _ (by simp)]
  names := hstands.names

/-- Behind an instruction that changed nothing. -/
theorem step : Stands full (c.add m n [x]) ρ a.step where
  index := by simp [Activation.step, hstands.index]
  args := hstands.args
  agrees := hstands.agrees
  names := hstands.names

/-- Only the code and the scopes of a context matter. -/
theorem of_code {c' : Context} (hcode : c'.code = c.code) (hscopes : c'.scopes = c.scopes) : Stands full c' ρ a :=
  ⟨by rw [hcode, hstands.index], hstands.args, hstands.agrees, by rw [hscopes]; exact hstands.names⟩

/-- The instruction behind a context is the next one. -/
theorem fetch (hcode : (c.add m n (x :: xs)).code.toList <+: f.code) :
    f.code[a.index]? = some x := by
  have hx : f.code[c.code.size + 0]? = some x := getElem?_of_add hcode rfl
  rwa [hstands.index]

end Stands

namespace Done

variable {full : List (List Symbol)} {c c₁ : Context} {ρ : Env} {a a₁ : Activation} {t : Temp} {x : Instr}
  {m n : Nat}

/-- An instruction puts the value of an expression into its temporary. -/
theorem put {w : Word} (hstands : Stands full c₁ ρ a₁) (hkeeps : Keeps c.temps a a₁)
    (ht : (c.temps : Int) ≤ t.id) :
    Done full c (c₁.add m n [x]) t a (some w) ρ (a₁.stepPut (some (.temp t)) w) where
  stands := hstands.stepPut_temp
  value w' hw' := by
    cases hw'
    exact Store.put_same ..
  keeps := hkeeps.stepPut_temp ht

end Done

end TreeCompiler.Lower
