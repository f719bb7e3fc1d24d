import Mathlib.Data.List.Nodup
import TreeCompiler.Proofs.Scope
import TreeCompiler.Proofs.Tree.Steady

namespace TreeCompiler

namespace ScopeTable

variable {t t' t'' : ScopeTable} {added added' : List Symbol}

/-- The names of the symbols of scopes. -/
def namesOf (scopes : List (List Symbol)) : Tree.Names :=
  scopes.map (·.map Symbol.name)

/-- The declared names of each open scope. -/
def names (t : ScopeTable) : Tree.Names :=
  t.scopes.map (·.map Symbol.name)

/-- Adds symbols to the innermost scope. -/
def extend (added : List Symbol) : List (List Symbol) → List (List Symbol)
  | [] => []
  | scope :: outer => (added ++ scope) :: outer

/-- No scope binds a name twice, and the storage of all symbols is taken. -/
structure Tidy (t : ScopeTable) : Prop where
  names : ∀ scope ∈ t.scopes, (scope.map Symbol.name).Nodup
  taken : ∀ scope ∈ t.scopes, ∀ s ∈ scope, s.storage ∈ t.taken

/-- A table comes from another one by new symbols in the innermost scope, with storage of their own.
    -/
structure Grows (t t' : ScopeTable) (added : List Symbol) : Prop where
  scopes : t'.scopes = extend added t.scopes
  kept : ∀ name ∈ t.taken, name ∈ t'.taken
  fresh : ∀ s ∈ added, s.storage ∉ t.taken
  taken : ∀ s ∈ added, s.storage ∈ t'.taken
  storages : (added.map Symbol.storage).Nodup
  tidy : t.Tidy → t'.Tidy

theorem extend_nil (scopes : List (List Symbol)) : extend [] scopes = scopes := by
  cases scopes <;> rfl

theorem extend_append (scopes : List (List Symbol)) :
    extend (added' ++ added) scopes = extend added' (extend added scopes) := by
  cases scopes <;> simp [extend]

variable {taken : List String} {name : String} {s : Symbol} {full : List (List Symbol)}

theorem names_extend (scopes : List (List Symbol)) :
    names ⟨extend added scopes, taken⟩ = (names ⟨scopes, taken⟩).with (added.map Symbol.name) := by
  cases scopes <;> simp [names, extend, Tree.Names.with]

theorem find?_isSome_iff {scope : List Symbol} :
    (find? scope name).isSome = true ↔ name ∈ scope.map Symbol.name := by
  simp [find?]

theorem find?_ok {scope : List Symbol} (hfind : find? scope name = some s) :
    s ∈ scope ∧ s.name = name :=
  ⟨List.mem_of_find?_eq_some hfind, by simpa using List.find?_some hfind⟩

namespace Grows

theorem refl (t : ScopeTable) : t.Grows t [] :=
  ⟨(extend_nil _).symm, fun _ h => h, by simp, by simp, by simp, fun h => h⟩

theorem trans (hgrows : t.Grows t' added) (hgrows' : t'.Grows t'' added') :
    t.Grows t'' (added' ++ added) where
  scopes := by rw [hgrows'.scopes, hgrows.scopes, extend_append]
  kept name hname := hgrows'.kept name (hgrows.kept name hname)
  fresh s hs hmem := by
    rcases List.mem_append.mp hs with hs | hs
    · exact hgrows'.fresh s hs (hgrows.kept _ hmem)
    · exact hgrows.fresh s hs hmem
  taken s hs := by
    rcases List.mem_append.mp hs with hs | hs
    · exact hgrows'.taken s hs
    · exact hgrows'.kept _ (hgrows.taken s hs)
  storages := by
    rw [List.map_append, List.nodup_append]
    refine ⟨hgrows'.storages, hgrows.storages, fun x hx y hy heq => ?_⟩
    obtain ⟨s, hs, rfl⟩ := List.mem_map.mp hx
    obtain ⟨s', hs', rfl⟩ := List.mem_map.mp hy
    exact hgrows'.fresh s hs (heq ▸ hgrows.taken s' hs')
  tidy htidy := hgrows'.tidy (hgrows.tidy htidy)

theorem declare {name storage : String} {ty : Code.Ty} (hdeclare : t.declare name ty = .ok (storage, t')) :
    t.Grows t' [⟨name, storage, ty⟩] := by
  obtain ⟨scope, outer, hscopes, hnew, hfresh, rfl⟩ := declare_ok hdeclare
  refine ⟨by simp [hscopes, extend], fun _ h => List.mem_cons_of_mem _ h, by simpa using hfresh, by simp,
    by simp, fun htidy => ?_⟩
  have hmem : scope ∈ t.scopes := by simp [hscopes]
  constructor
  · intro scope' hscope'
    rcases List.mem_cons.mp hscope' with rfl | hscope'
    · rw [List.map_cons, List.nodup_cons]
      refine ⟨fun hbound => ?_, htidy.names scope hmem⟩
      rw [← find?_isSome_iff, hnew] at hbound
      cases hbound
    · exact htidy.names scope' (by simp [hscopes, hscope'])
  · intro scope' hscope' s hs
    rcases List.mem_cons.mp hscope' with rfl | hscope'
    · rcases List.mem_cons.mp hs with rfl | hs
      · exact List.mem_cons_self
      · exact List.mem_cons_of_mem _ (htidy.taken scope hmem s hs)
    · exact List.mem_cons_of_mem _ (htidy.taken scope' (by simp [hscopes, hscope']) s hs)

/-- What a block declares is in a scope of its own, so that nothing of it is seen behind it. -/
theorem block (hgrows : t.enter.Grows t' added) (hleave : t'.leave = .ok t'') :
    t''.scopes = t.scopes ∧ t''.taken = t'.taken ∧ t'.scopes = added :: t.scopes ∧ t.Grows t'' [] := by
  obtain ⟨scope, outer, hscopes, rfl⟩ := leave_ok hleave
  have hinner := hgrows.scopes
  rw [hscopes, enter, extend, List.append_nil] at hinner
  obtain ⟨rfl, rfl⟩ := List.cons.inj hinner
  refine ⟨rfl, rfl, hscopes, (extend_nil _).symm, hgrows.kept, by simp, by simp, by simp, fun htidy => ?_⟩
  have htidy' := hgrows.tidy (t := t.enter)
    ⟨by simpa [enter] using htidy.names, by simpa [enter] using htidy.taken⟩
  exact ⟨fun scope hs => htidy'.names scope (by simp [hscopes, hs]),
    fun scope hs => htidy'.taken scope (by simp [hscopes, hs])⟩

theorem names (hgrows : t.Grows t' added) : t'.names = t.names.with (added.map Symbol.name) := by
  have hnames : ScopeTable.names ⟨extend added t.scopes, t.taken⟩ = _ := names_extend t.scopes
  rwa [← hgrows.scopes] at hnames

end Grows

/-- The symbols that the open scopes will have when they are left: those of the table, and others
    whose storage is not taken yet. -/
def Covers (taken : List String) : List (List Symbol) → List (List Symbol) → Prop
  | [], [] => True
  | all :: full, scope :: outer =>
    (∃ later, all = later ++ scope ∧ ∀ s ∈ later, s.storage ∉ taken) ∧ Covers taken full outer
  | _, _ => False

/-- No scope binds a name twice, and no two symbols share storage. -/
structure Apart (full : List (List Symbol)) : Prop where
  names : ∀ scope ∈ full, (scope.map Symbol.name).Nodup
  storages : (full.flatten.map Symbol.storage).Nodup

theorem Covers.of_taken {taken' : List String} (htaken : ∀ name ∈ taken, name ∈ taken') :
    ∀ {full scopes : List (List Symbol)}, Covers taken' full scopes → Covers taken full scopes
  | [], [], _ => trivial
  | _ :: _, _ :: _, ⟨⟨later, hall, hfresh⟩, hrest⟩ =>
    ⟨⟨later, hall, fun s hs hmem => hfresh s hs (htaken _ hmem)⟩, hrest.of_taken htaken⟩
  | [], _ :: _, hcovers => hcovers.elim
  | _ :: _, [], hcovers => hcovers.elim

/-- What the scopes will have at the end was to come at the start. -/
theorem Covers.of_grows (hcovers : Covers t'.taken full t'.scopes)
    (hgrows : t.Grows t' added) : Covers t.taken full t.scopes := by
  rw [hgrows.scopes] at hcovers
  cases hscopes : t.scopes with
  | nil =>
    rw [hscopes] at hcovers
    exact hcovers.of_taken hgrows.kept
  | cons scope outer =>
    rw [hscopes] at hcovers
    cases full with
    | nil => exact hcovers.elim
    | cons all full =>
      obtain ⟨⟨later, rfl, hfresh⟩, hrest⟩ := hcovers
      refine ⟨⟨later ++ added, by simp, fun s hs hmem => ?_⟩, hrest.of_taken hgrows.kept⟩
      rcases List.mem_append.mp hs with hs | hs
      · exact hfresh s hs (hgrows.kept _ hmem)
      · exact hgrows.fresh s hs hmem

/-- A symbol that a scope will have is one of the table, or its storage is not taken yet. -/
theorem Covers.mem : ∀ {full scopes : List (List Symbol)},
    Covers taken full scopes → s ∈ full.flatten → (∃ scope ∈ scopes, s ∈ scope) ∨ s.storage ∉ taken
  | [], [], _, hs => by simp at hs
  | _ :: full, scope :: outer, ⟨⟨later, rfl, hfresh⟩, hrest⟩, hs => by
    rw [List.flatten_cons, List.append_assoc] at hs
    rcases List.mem_append.mp hs with hs | hs
    · exact .inr (hfresh s hs)
    rcases List.mem_append.mp hs with hs | hs
    · exact .inl ⟨scope, by simp, hs⟩
    · rcases hrest.mem hs with ⟨scope', hscope', hs⟩ | hs
      · exact .inl ⟨scope', by simp [hscope'], hs⟩
      · exact .inr hs
  | [], _ :: _, hcovers, _ => hcovers.elim
  | _ :: _, [], hcovers, _ => hcovers.elim

/-- A name that is found is one that a scope will have. -/
theorem Covers.mem_of_find? :
    ∀ {full scopes : List (List Symbol)}, Covers taken full scopes →
      scopes.findSome? (find? · name) = some s → name ∈ (namesOf full).flatten
  | [], [], _, hfind => by cases hfind
  | all :: full, scope :: outer, ⟨⟨later, hall, _⟩, hrest⟩, hfind => by
    rw [namesOf, List.map_cons, List.flatten_cons, List.mem_append]
    rw [List.findSome?_cons] at hfind
    cases hscope : find? scope name with
    | some s' =>
      obtain ⟨hmem, rfl⟩ := find?_ok hscope
      exact .inl (List.mem_map_of_mem (by simp [hall, hmem]))
    | none =>
      rw [hscope] at hfind
      exact .inr (hrest.mem_of_find? hfind)

/-- A variable is there when its symbol is declared. -/
theorem Covers.matches_bind? {storage : String} {ty : Code.Ty}
    {ρ ρ' : Tree.Env} {w : Word} (hcovers : Covers taken full t'.scopes)
    (hdeclare : t.declare name ty = .ok (storage, t')) (hmatches : ρ.Matches (namesOf full) t.names)
    (hbind : ρ.bind? name w = some ρ') : ρ'.Matches (namesOf full) t'.names := by
  rw [(Grows.declare hdeclare).names]
  obtain ⟨scope, outer, _, _, _, rfl⟩ := declare_ok hdeclare
  cases full with
  | nil => exact hcovers.elim
  | cons all full =>
    obtain ⟨⟨later, rfl, _⟩, _⟩ := hcovers
    exact hmatches.bind? hbind (by simp)

/-- The symbols of a block are apart from those around it. -/
theorem Apart.block (hapart : Apart full) (htidy : t.Tidy)
    (hgrows : t.enter.Grows t' added) (hleave : t'.leave = .ok t'')
    (hcovers : Covers t''.taken full t''.scopes) :
    Apart (added :: full) ∧ Covers t'.taken (added :: full) t'.scopes := by
  obtain ⟨hscopes, htaken, hinner, _⟩ := hgrows.block hleave
  have htidy' := hgrows.tidy (t := t.enter)
    ⟨by simpa [enter] using htidy.names, by simpa [enter] using htidy.taken⟩
  refine ⟨⟨fun scope hscope => ?_, ?_⟩, ?_⟩
  · rcases List.mem_cons.mp hscope with rfl | hscope
    · exact htidy'.names _ (by simp [hinner])
    · exact hapart.names scope hscope
  · rw [List.flatten_cons, List.map_append, List.nodup_append]
    refine ⟨hgrows.storages, hapart.storages, fun x hx y hy heq => ?_⟩
    obtain ⟨s, hs, rfl⟩ := List.mem_map.mp hx
    obtain ⟨s', hs', rfl⟩ := List.mem_map.mp hy
    -- A symbol around the block was there before it or comes behind it.
    rcases hcovers.mem hs' with ⟨scope, hscope, hold⟩ | hnew
    · rw [hscopes] at hscope
      exact hgrows.fresh s hs (heq ▸ htidy.taken scope hscope s' hold)
    · rw [htaken, ← heq] at hnew
      exact hnew (hgrows.taken s hs)
  · rw [hinner, ← htaken, ← hscopes]
    exact ⟨⟨[], by simp, by simp⟩, hcovers⟩

end ScopeTable

namespace Lower

open Code
open ScopeTable (Covers Apart find? namesOf)

/-- The variables of the code hold what the variables of the open scopes hold, also those that are
    only declared later. -/
def Agrees (σ : Store) : List (List Symbol) → Tree.Env → Prop
  | [], [] => True
  | all :: full, frame :: outer =>
    (∀ s ∈ all, ∀ w, frame s.name = some w → σ (.var s.storage) = w) ∧ Agrees σ full outer
  | _, _ => False

namespace Agrees

variable {σ σ' : Store} {taken : List String} {name : String} {s : Symbol} {w : Word}

theorem of_keeps : ∀ {full : List (List Symbol)} {ρ : Tree.Env}, Agrees σ full ρ →
    (∀ s ∈ full.flatten, σ' (.var s.storage) = σ (.var s.storage)) → Agrees σ' full ρ
  | [], [], _, _ => trivial
  | _ :: _, _ :: _, ⟨htop, hrest⟩, hkeeps =>
    ⟨fun s hs w hw => (hkeeps s (by simp [hs])).trans (htop s hs w hw),
      hrest.of_keeps fun s hs => hkeeps s (by rw [List.flatten_cons]; simp [hs])⟩
  | [], _ :: _, hagrees, _ => hagrees.elim
  | _ :: _, [], hagrees, _ => hagrees.elim

variable {all : List Symbol} {full : List (List Symbol)}

/-- The innermost scope has the variable of a declared name exactly if it has the symbol of the name. -/
theorem isSome_eq_find? {scope : List Symbol} {outer : List (List Symbol)} {frame : String → Option Word}
    {ρ : Tree.Env} (hcovers : Covers taken (all :: full) (scope :: outer))
    (hmatches : Tree.Env.Matches (namesOf (all :: full)) (namesOf (scope :: outer)) (frame :: ρ))
    (hfind : (scope :: outer).findSome? (find? · name) = some s)
    (hget : (Tree.Env.get? (frame :: ρ) name).isSome = true) :
    (frame name).isSome = (find? scope name).isSome := by
  rw [Bool.eq_iff_iff, ScopeTable.find?_isSome_iff]
  refine hmatches.top_iff ?_ hget
  rw [← ScopeTable.find?_isSome_iff]
  rw [List.findSome?_cons] at hfind
  cases hscope : find? scope name with
  | some s' => exact .inl rfl
  | none =>
    rw [hscope] at hfind
    exact .inr (hcovers.2.mem_of_find? hfind)

/-- What a variable holds is in its storage. -/
theorem get? : ∀ {full scopes : List (List Symbol)} {ρ : Tree.Env}, Agrees σ full ρ →
    Covers taken full scopes → ρ.Matches (namesOf full) (namesOf scopes) →
      scopes.findSome? (find? · name) = some s → ρ.get? name = some w → σ (.var s.storage) = w
  | [], [], _, _, _, _, hfind, _ => by simp at hfind
  | all :: full, scope :: outer, frame :: ρ, ⟨htop, hrest⟩, hcovers, hmatches, hfind, hget => by
    have hsame := isSome_eq_find? hcovers hmatches hfind (by rw [hget]; rfl)
    obtain ⟨⟨later, hall, _⟩, hcovers⟩ := hcovers
    rw [Tree.Env.get?] at hget
    rw [List.findSome?_cons] at hfind
    cases hscope : find? scope name with
    | some s' =>
      obtain ⟨w', hw'⟩ := Option.isSome_iff_exists.mp (hsame.trans (by rw [hscope]; rfl))
      obtain ⟨hmem, rfl⟩ := ScopeTable.find?_ok hscope
      rw [hscope] at hfind
      cases hfind
      rw [hw'] at hget
      cases hget
      exact htop s (by simp [hall, hmem]) w hw'
    | none =>
      rw [hscope] at hfind hsame
      have hframe : frame name = none := by simpa using hsame
      rw [hframe] at hget
      exact hrest.get? hcovers hmatches.tail hfind hget
  | [], _ :: _, _, _, hcovers, _, _, _ => hcovers.elim
  | _ :: _, [], _, _, hcovers, _, _, _ => hcovers.elim
  | _ :: _, _ :: _, [], hagrees, _, _, _, _ => hagrees.elim

/-- The variables around a block agree. -/
theorem tail : ∀ {ρ : Tree.Env}, Agrees σ (all :: full) ρ →
    Agrees σ full ρ.tail
  | _ :: _, hagrees => hagrees.2
  | [], hagrees => hagrees.elim

/-- Giving a variable of the innermost scope a value is storing the value. -/
theorem assignIn {frame : String → Option Word} {ρ : Tree.Env}
    (hagrees : Agrees σ (all :: full) (frame :: ρ)) (hapart : Apart (all :: full)) (hs : s ∈ all) :
    Agrees (σ.put (.var s.storage) w) (all :: full) (Tree.assignIn frame s.name w :: ρ) := by
  obtain ⟨htop, hrest⟩ := hagrees
  have hstorages := hapart.storages
  rw [List.flatten_cons, List.map_append, List.nodup_append] at hstorages
  obtain ⟨hown, _, hdisjoint⟩ := hstorages
  refine ⟨fun s' hs' w' hw' => ?_, hrest.of_keeps fun s' hs' => ?_⟩
  · rw [Tree.assignIn] at hw'
    split at hw'
    · next hname =>
      cases hw'
      have heq : s' = s := List.inj_on_of_nodup_map (hapart.names all (by simp)) hs' hs hname
      rw [heq, Store.put_same]
    · next hname =>
      rw [Store.put_ne _ _ fun heq => hname ?_]
      · exact htop s' hs' w' hw'
      · exact congrArg _ (List.inj_on_of_nodup_map hown hs' hs (Code.Operand.var.inj heq))
  · refine Store.put_ne _ _ fun heq => ?_
    exact hdisjoint _ (List.mem_map_of_mem hs) _ (List.mem_map_of_mem hs') (Code.Operand.var.inj heq).symm

/-- Giving a declared variable its first value is storing the value. -/
theorem bind? {t t' : ScopeTable} {storage : String} {ty : Code.Ty}
    (hdeclare : t.declare name ty = .ok (storage, t')) (hcovers : Covers taken full t'.scopes)
    (hapart : Apart full) : ∀ {ρ ρ' : Tree.Env}, Agrees σ full ρ → ρ.bind? name w = some ρ' →
      Agrees (σ.put (.var storage) w) full ρ'
  | [], _, _, hbind => by simp [Tree.Env.bind?] at hbind
  | frame :: ρ, ρ', hagrees, hbind => by
    obtain ⟨scope, outer, _, _, _, rfl⟩ := ScopeTable.declare_ok hdeclare
    cases hbind
    cases full with
    | nil => exact hagrees.elim
    | cons all full =>
      obtain ⟨⟨later, rfl, _⟩, _⟩ := hcovers
      exact hagrees.assignIn (s := ⟨name, storage, ty⟩) hapart (by simp)

/-- Giving a variable a value is storing the value. -/
theorem set? : ∀ {full scopes : List (List Symbol)} {ρ ρ' : Tree.Env}, Agrees σ full ρ →
    Covers taken full scopes → ρ.Matches (namesOf full) (namesOf scopes) → Apart full →
      scopes.findSome? (find? · name) = some s → ρ.set? name w = some ρ' →
        s ∈ full.flatten ∧ Agrees (σ.put (.var s.storage) w) full ρ'
  | [], [], _, _, _, _, _, _, hfind, _ => by simp at hfind
  | all :: full, scope :: outer, frame :: ρ, ρ', ⟨htop, hrest⟩, hcovers, hmatches, hapart, hfind, hset => by
    have hsame := isSome_eq_find? hcovers hmatches hfind (Tree.Env.isSome_get?_of_set? hset)
    obtain ⟨⟨later, hall, _⟩, hcovers⟩ := hcovers
    rw [Tree.Env.set?, hsame] at hset
    rw [List.findSome?_cons] at hfind
    cases hscope : find? scope name with
    | some s' =>
      obtain ⟨hmem, rfl⟩ := ScopeTable.find?_ok hscope
      rw [hscope] at hfind hset
      cases hfind
      cases hset
      have hsAll : s ∈ all := by simp [hall, hmem]
      exact ⟨by simp [hsAll], Agrees.assignIn ⟨htop, hrest⟩ hapart hsAll⟩
    | none =>
      rw [hscope] at hfind hset
      have hstorages := hapart.storages
      rw [List.flatten_cons, List.map_append, List.nodup_append] at hstorages
      obtain ⟨_, houter, hdisjoint⟩ := hstorages
      obtain ⟨ρ₁, hset', rfl⟩ := Option.map_eq_some_iff.mp hset
      have hapart' : Apart full := ⟨fun scope hs => hapart.names scope (by simp [hs]), houter⟩
      obtain ⟨hmem, hagrees⟩ := hrest.set? hcovers hmatches.tail hapart' hfind hset'
      refine ⟨by rw [List.flatten_cons]; simp [hmem], fun s' hs' w' hw' => ?_, hagrees⟩
      rw [Store.put_ne _ _ fun heq => ?_]
      · exact htop s' hs' w' hw'
      · exact hdisjoint _ (List.mem_map_of_mem hs') _ (List.mem_map_of_mem hmem)
          (Code.Operand.var.inj heq)
  | [], _ :: _, _, _, _, hcovers, _, _, _, _ => hcovers.elim
  | _ :: _, [], _, _, _, hcovers, _, _, _, _ => hcovers.elim
  | _ :: _, _ :: _, [], _, hagrees, _, _, _, _, _ => hagrees.elim

end Agrees

end Lower

end TreeCompiler
