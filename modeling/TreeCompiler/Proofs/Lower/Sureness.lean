import TreeCompiler.Proofs.Lower.Scopes
import TreeCompiler.Proofs.Tree.Settled

/-!
Variables of a function and the variables of its code: each variable in scope has storage of its own,
so that what is known of the ones can be said of the others.
-/

namespace TreeCompiler

namespace ScopeTable

variable {taken : List String} {t t' : ScopeTable} {name storage : String}

variable {all : List Symbol} {full : List (List Symbol)}

theorem Apart.tail (hapart : Apart (all :: full)) : Apart full := by
  have hstorages := hapart.storages
  rw [List.flatten_cons, List.map_append, List.nodup_append] at hstorages
  exact ⟨fun scope hscope => hapart.names scope (List.mem_cons_of_mem _ hscope), hstorages.2.1⟩

/-- Symbols of one scope share no storage with those of the scopes around it. -/
theorem Apart.ne (hapart : Apart (all :: full)) {s s' : Symbol}
    (hs : s ∈ all) (hs' : s' ∈ full.flatten) : s.storage ≠ s'.storage := by
  have hstorages := hapart.storages
  rw [List.flatten_cons, List.map_append, List.nodup_append] at hstorages
  exact hstorages.2.2 _ (List.mem_map_of_mem hs) _ (List.mem_map_of_mem hs')

theorem Covers.length_eq : ∀ {full scopes : List (List Symbol)}, Covers taken full scopes →
    full.length = scopes.length
  | [], [], _ => rfl
  | _ :: _, _ :: _, hcovers => congrArg (· + 1) hcovers.2.length_eq
  | [], _ :: _, hcovers => hcovers.elim
  | _ :: _, [], hcovers => hcovers.elim

/-- A name that was just declared is found. -/
theorem lookup_of_declare {ty : Code.Ty} (hdeclare : t.declare name ty = .ok (storage, t')) :
    t'.lookup name = .ok ⟨name, storage, ty⟩ := by
  obtain ⟨scope, outer, _, _, _, rfl⟩ := declare_ok hdeclare
  simp [lookup, find?]

end ScopeTable

namespace Lower

open ScopeTable (Covers Apart find?)
open TreeCompiler.Tree (Local Names Sure)

/-- A variable in scope is stored in a variable of the code. -/
def Stored : List (List Symbol) → Local → String → Prop
  | [], _, _ => False
  | all :: full, x, v => (x.1 = full.length ∧ ∃ s ∈ all, s.name = x.2 ∧ s.storage = v) ∨ Stored full x v

namespace Stored

variable {full : List (List Symbol)} {x x' : Local} {v v' : String}

theorem lt (hstored : Stored full x v) : x.1 < full.length := by
  induction full with
  | nil => exact hstored.elim
  | cons all full ih =>
    rw [List.length_cons]
    rcases hstored with ⟨hlevel, _⟩ | hstored
    · omega
    · exact Nat.lt_succ_of_lt (ih hstored)

theorem mem (hstored : Stored full x v) : ∃ s ∈ full.flatten, s.storage = v := by
  induction full with
  | nil => exact hstored.elim
  | cons all full ih =>
    rw [List.flatten_cons]
    rcases hstored with ⟨_, s, hs, _, rfl⟩ | hstored
    · exact ⟨s, List.mem_append_left _ hs, rfl⟩
    · obtain ⟨s, hs, hv⟩ := ih hstored
      exact ⟨s, List.mem_append_right _ hs, hv⟩

/-- A variable has one storage. -/
theorem unique (hstored : Stored full x v) (hstored' : Stored full x v') (hapart : Apart full) : v' = v := by
  induction full with
  | nil => exact hstored.elim
  | cons all full ih =>
    rcases hstored with ⟨hlevel, s, hs, hname, rfl⟩ | hstored
    · rcases hstored' with ⟨_, s', hs', hname', rfl⟩ | hstored'
      · have hsame := List.inj_on_of_nodup_map (hapart.names all List.mem_cons_self) hs' hs (hname'.trans hname.symm)
        rw [hsame]
      · exact absurd hstored'.lt (by omega)
    · rcases hstored' with ⟨hlevel, _⟩ | hstored'
      · exact absurd hstored.lt (by omega)
      · exact ih hstored hstored' hapart.tail

/-- Different variables have different storage. -/
theorem inj (hstored : Stored full x v) (hstored' : Stored full x' v) (hapart : Apart full) : x' = x := by
  induction full with
  | nil => exact hstored.elim
  | cons all full ih =>
    have hnodup := hapart.storages
    rw [List.flatten_cons, List.map_append, List.nodup_append] at hnodup
    rcases hstored with ⟨hlevel, s, hs, hname, hv⟩ | hstored
    · rcases hstored' with ⟨hlevel', s', hs', hname', hv'⟩ | hstored'
      · have hsame := List.inj_on_of_nodup_map hnodup.1 hs' hs (hv'.trans hv.symm)
        exact Prod.ext (hlevel'.trans hlevel.symm) (hname'.symm.trans (hsame ▸ hname))
      · obtain ⟨s', hs', hv'⟩ := hstored'.mem
        exact absurd (hv.trans hv'.symm) (hapart.ne hs hs')
    · rcases hstored' with ⟨_, s', hs', _, hv'⟩ | hstored'
      · obtain ⟨s, hs, hv⟩ := hstored.mem
        exact absurd (hv'.trans hv.symm) (hapart.ne hs' hs)
      · exact ih hstored hstored' hapart.tail

end Stored

/-- A name stands for the variable whose storage the table gives. -/
theorem exists_stored {taken : List String} {name : String} {s : Symbol} :
    ∀ {full scopes : List (List Symbol)}, Covers taken full scopes → scopes.findSome? (find? · name) = some s →
      ∃ x, Names.resolve? (scopes.map (·.map Symbol.name)) name = some x ∧ Stored full x s.storage
  | [], [], _, hfind => by simp at hfind
  | all :: full, scope :: outer, ⟨⟨later, hall, _⟩, hcovers⟩, hfind => by
    rw [List.map_cons, Names.resolve?]
    rw [List.findSome?_cons] at hfind
    cases hs : find? scope name with
    | some s' =>
      rw [hs] at hfind
      cases hfind
      obtain ⟨hmem, hname⟩ := ScopeTable.find?_ok hs
      rw [if_pos (ScopeTable.find?_isSome_iff.mp (by rw [hs]; rfl))]
      exact ⟨_, rfl, .inl ⟨by simp [hcovers.length_eq], s, by simp [hall, hmem], hname, rfl⟩⟩
    | none =>
      rw [hs] at hfind
      obtain ⟨x, hx, hstored⟩ := exists_stored hcovers hfind
      have hnot : name ∉ scope.map Symbol.name := by
        rw [← ScopeTable.find?_isSome_iff, hs]
        simp
      rw [if_neg hnot]
      exact ⟨x, hx, .inr hstored⟩
  | [], _ :: _, hcovers, _ => hcovers.elim
  | _ :: _, [], hcovers, _ => hcovers.elim

/-- A variable of the code stores a variable that has a value in any case. -/
def Has (full : List (List Symbol)) (s : Sure) (v : String) : Prop :=
  ∀ given, s = some given → ∃ x ∈ given, Stored full x v

namespace Has

variable {taken : List String} {full : List (List Symbol)} {s s' : Sure} {v name : String} {t : ScopeTable}
  {symbol : Symbol}

theorem unreached : Has full none v :=
  fun _ hnone => by cases hnone

theorem some_iff {given : List Local} : Has full (some given) v ↔ ∃ x ∈ given, Stored full x v :=
  ⟨fun hhas => hhas given rfl, fun hexists _ heq => Option.some.inj heq ▸ hexists⟩

/-- What is read is known to have a value exactly if its storage is. -/
theorem has_iff (hcovers : Covers taken full t.scopes) (hapart : Apart full)
    (hlookup : t.lookup name = .ok symbol) : s.has t.names name = true ↔ Has full s symbol.storage := by
  obtain ⟨x, hx, hstored⟩ := exists_stored hcovers (ScopeTable.lookup_ok hlookup)
  cases s with
  | none => exact iff_of_true rfl unreached
  | some given =>
    have hhas : Sure.has (some given) t.names name = decide (x ∈ given) := by
      simp [Sure.has, ScopeTable.names, hx]
    rw [hhas, decide_eq_true_iff, some_iff]
    refine ⟨fun hmem => ⟨x, hmem, hstored⟩, ?_⟩
    rintro ⟨x', hmem, hstored'⟩
    rwa [← hstored.inj hstored' hapart]

/-- Giving a variable a value gives its storage one. -/
theorem gain_iff (hcovers : Covers taken full t.scopes) (hapart : Apart full)
    (hlookup : t.lookup name = .ok symbol) :
    Has full (s.gain t.names name) v ↔ Has full s v ∨ v = symbol.storage := by
  obtain ⟨x, hx, hstored⟩ := exists_stored hcovers (ScopeTable.lookup_ok hlookup)
  cases s with
  | none => exact iff_of_true unreached (.inl unreached)
  | some given =>
    have hgain : Sure.gain (some given) t.names name = some (x :: given) := by
      simp [Sure.gain, ScopeTable.names, hx]
    rw [hgain, some_iff, some_iff]
    constructor
    · rintro ⟨x', hmem, hstored'⟩
      rcases List.mem_cons.mp hmem with rfl | hmem
      · exact .inr (hstored.unique hstored' hapart)
      · exact .inl ⟨x', hmem, hstored'⟩
    · rintro (⟨x', hmem, hstored'⟩ | rfl)
      · exact ⟨x', List.mem_cons_of_mem _ hmem, hstored'⟩
      · exact ⟨x, List.mem_cons_self, hstored⟩

/-- Where two ways come together, what has a value is what has one on both. -/
theorem meet_iff (hapart : Apart full) : Has full (s.meet s') v ↔ Has full s v ∧ Has full s' v := by
  cases s with
  | none => exact ⟨fun hhas => ⟨unreached, hhas⟩, And.right⟩
  | some given =>
    cases s' with
    | none => exact ⟨fun hhas => ⟨hhas, unreached⟩, And.left⟩
    | some given' =>
      rw [Sure.meet, some_iff, some_iff, some_iff]
      constructor
      · rintro ⟨x, hmem, hstored⟩
        obtain ⟨hmem, hmem'⟩ := List.mem_filter.mp hmem
        exact ⟨⟨x, hmem, hstored⟩, x, of_decide_eq_true hmem', hstored⟩
      · rintro ⟨⟨x, hmem, hstored⟩, x', hmem', hstored'⟩
        obtain rfl := hstored.inj hstored' hapart
        exact ⟨_, List.mem_filter.mpr ⟨hmem, decide_eq_true hmem'⟩, hstored⟩

variable {added : List Symbol}

/-- Opening a scope gives nothing a value. -/
theorem inside_iff {names : Names} (hlength : names.length = full.length) :
    Has (added :: full) (s.inside names) v ↔ Has full s v := by
  cases s with
  | none => exact iff_of_true unreached unreached
  | some given =>
    rw [Sure.inside, Option.map_some, some_iff, some_iff]
    constructor
    · rintro ⟨x, hmem, hstored⟩
      obtain ⟨hmem, hlevel⟩ := List.mem_filter.mp hmem
      rw [decide_eq_true_iff] at hlevel
      rcases hstored with ⟨htop, _⟩ | hstored
      · omega
      · exact ⟨x, hmem, hstored⟩
    · rintro ⟨x, hmem, hstored⟩
      have hlevel := hstored.lt
      exact ⟨x, List.mem_filter.mpr ⟨hmem, decide_eq_true (by omega)⟩, .inr hstored⟩

/-- What has a value around a scope has it in there. -/
theorem cons (hhas : Has full s v) : Has (added :: full) s v := by
  intro given hgiven
  obtain ⟨x, hmem, hstored⟩ := hhas given hgiven
  exact ⟨x, hmem, .inr hstored⟩

/-- What has a value in a scope and is not stored there has it outside. -/
theorem of_cons (hhas : Has (added :: full) s v) (hother : ∀ a ∈ added, a.storage ≠ v) :
    Has full s v := by
  intro given hgiven
  obtain ⟨x, hmem, ⟨_, a, ha, _, hv⟩ | hstored⟩ := hhas given hgiven
  · exact absurd hv (hother a ha)
  · exact ⟨x, hmem, hstored⟩

end Has

end Lower

end TreeCompiler
