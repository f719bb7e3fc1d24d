import TreeCompiler.Proofs.Nesting

/-!
Storage is never shared: whatever is asked of a table of scopes, no two declarations get the same
storage. The search for a free name ends, and at the first one that is free.
-/

namespace TreeCompiler.ScopeTable

/-- A name and its numbered variants, in the order in which they are tried. -/
def variant (name : String) : Nat → String
  | 0 => name
  | k + 1 => name ++ "." ++ toString (k + 1)

/-- The search for a free name, without a bound. -/
inductive Search (taken : List String) (name : String) : String → Nat → String → Prop where
  | free {candidate : String} {number : Nat} (hfree : candidate ∉ taken) :
    Search taken name candidate number candidate
  | taken {candidate storage : String} {number : Nat} (htaken : candidate ∈ taken)
    (hrest : Search taken name (name ++ "." ++ toString number) (number + 1) storage) :
    Search taken name candidate number storage

/-- A variant is the first that is free. -/
structure FirstFree (taken : List String) (name : String) (k : Nat) : Prop where
  free : variant name k ∉ taken
  taken : ∀ j < k, variant name j ∈ taken

/-- The storage that an action gives out. -/
def storage? (t : ScopeTable) : Action → Option String
  | .declare name ty => (t.declare name ty).toOption.map (·.1)
  | _ => none

/-- The storage that a sequence of actions gives out. -/
def storages (t : ScopeTable) : List Action → List String
  | [] => []
  | a :: as => (t.storage? a).toList ++ (t.after a).storages as

section Search

variable {taken : List String} {name candidate storage storage' : String} {number k : Nat}

theorem Search.unique (hsearch : Search taken name candidate number storage)
    (hsearch' : Search taken name candidate number storage') : storage = storage' := by
  induction hsearch with
  | free hfree =>
    cases hsearch' with
    | free => rfl
    | taken htaken => exact absurd htaken hfree
  | taken htaken _ ih =>
    cases hsearch' with
    | free hfree => exact absurd htaken hfree
    | taken _ hrest => exact ih hrest

/-- From any variant that is tried, the search comes to the first free one behind it. -/
theorem Search.of_firstFree {i : Nat} (hfirst : FirstFree taken name k) (hi : i ≤ k) :
    Search taken name (variant name i) (i + 1) (variant name k) := by
  induction hi using Nat.decreasingInduction with
  | self => exact .free hfirst.free
  | of_succ i hi ih => exact .taken (hfirst.taken i hi) ih

/-- The bounded search passes over taken variants only. -/
theorem freeVariant_eq (taken : List String) (name : String) (i tries : Nat) :
    ∃ k, freeVariant taken name (i + 1) tries = variant name (i + k + 1) ∧
      ∀ j < k, variant name (i + j + 1) ∈ taken := by
  induction tries generalizing i with
  | zero => exact ⟨0, rfl, fun j hj => absurd hj (Nat.not_lt_zero j)⟩
  | succ tries ih =>
    rw [freeVariant]
    split
    · next htaken =>
      obtain ⟨k, hresult, hpassed⟩ := ih (i + 1)
      refine ⟨k + 1, by rw [hresult, Nat.add_right_comm i 1 k, Nat.add_assoc i k 1], fun j hj => ?_⟩
      cases j with
      | zero => exact htaken
      | succ j =>
        rw [← Nat.add_assoc, Nat.add_right_comm i j 1]
        exact hpassed j (by omega)
    · exact ⟨0, rfl, fun j hj => absurd hj (Nat.not_lt_zero j)⟩

/-- Some variant is free, and the bounded search runs into the first one. -/
theorem exists_firstFree (taken : List String) (name : String) :
    ∃ k, storageName taken name = variant name k ∧ FirstFree taken name k := by
  have hfree := storageName_not_mem taken name
  by_cases hname : name ∈ taken
  · obtain ⟨k, hresult, hpassed⟩ := freeVariant_eq taken name 0 taken.length
    have hstorage : storageName taken name = variant name (k + 1) := by
      rw [storageName, if_pos hname, hresult, Nat.zero_add]
    refine ⟨k + 1, hstorage, hstorage ▸ hfree, fun j hj => ?_⟩
    cases j with
    | zero => exact hname
    | succ j =>
      rw [← Nat.zero_add j]
      exact hpassed j (by omega)
  · refine ⟨0, ?_, hname, fun j hj => absurd hj (Nat.not_lt_zero j)⟩
    rw [storageName, if_neg hname, variant]

/-- The search ends whatever is taken, at one name only. -/
theorem search_ends (taken : List String) (name : String) : ∃! storage, Search taken name name 1 storage := by
  obtain ⟨k, _, hfirst⟩ := exists_firstFree taken name
  have hends : Search taken name name 1 (variant name k) := Search.of_firstFree hfirst (Nat.zero_le k)
  exact ⟨_, hends, fun storage hsearch => hsearch.unique hends⟩

end Search

variable {t : ScopeTable} {a : Action} {as : List Action} {name storage : String} {ty : Code.Ty}

/-- The storage of a declaration is the one that the search finds. -/
theorem storage_of_declare {t' : ScopeTable} (hdeclare : t.declare name ty = .ok (storage, t')) :
    storage = storageName t.taken name := by
  unfold declare at hdeclare
  split at hdeclare
  · cases hdeclare
  · split at hdeclare
    · cases hdeclare
    · cases hdeclare
      rfl

/-- An action takes the storage that it gives out, and no other. -/
theorem taken_after (t : ScopeTable) (a : Action) : (t.after a).taken = (t.storage? a).toList ++ t.taken := by
  unfold after
  cases a with
  | enter => rfl
  | leave =>
    rw [perform_leave]
    cases hleave : t.leave with
    | error e => rfl
    | ok t' =>
      obtain ⟨_, _, _, rfl⟩ := leave_ok hleave
      rfl
  | declare name ty =>
    rw [perform_declare, storage?]
    cases hdeclare : t.declare name ty with
    | error e => rfl
    | ok r =>
      obtain ⟨_, _, _, _, _, hresult⟩ := declare_ok hdeclare
      exact congrArg ScopeTable.taken hresult
  | lookup name =>
    rw [perform_lookup]
    cases t.lookup name <;> rfl

theorem nodup_taken_after (hnodup : t.taken.Nodup) : (t.after a).taken.Nodup := by
  rw [taken_after]
  cases hstorage : t.storage? a with
  | none => exact hnodup
  | some storage =>
    cases a with
    | declare name ty =>
      obtain ⟨r, hdeclare, rfl⟩ := Option.map_eq_some_iff.mp hstorage
      obtain ⟨_, _, _, _, hfree, _⟩ := declare_ok (eq_ok_of_toOption hdeclare)
      exact List.nodup_cons.mpr ⟨hfree, hnodup⟩
    | _ => cases hstorage

/-- What is taken behind a sequence of actions is what it gave out, the latest first, and what was
    taken before. -/
theorem taken_run (t : ScopeTable) (as : List Action) : (t.run as).taken = (t.storages as).reverse ++ t.taken := by
  induction as generalizing t with
  | nil => rfl
  | cons a as ih =>
    have hone : (t.storage? a).toList.reverse = (t.storage? a).toList := by cases t.storage? a <;> rfl
    rw [run_cons, ih, taken_after, storages, List.reverse_append, hone, List.append_assoc]

theorem nodup_taken_run (hnodup : t.taken.Nodup) : (t.run as).taken.Nodup := by
  induction as generalizing t with
  | nil => exact hnodup
  | cons a as ih => exact ih (nodup_taken_after hnodup)

/-- On a new table, what is taken is what was given out. -/
theorem storages_eq_reverse_taken (as : List Action) : storages {} as = (run {} as).taken.reverse := by
  rw [taken_run, List.append_nil, List.reverse_reverse]

theorem firstFree_reverse {taken : List String} {k : Nat} :
    FirstFree taken.reverse name k ↔ FirstFree taken name k := by
  constructor <;>
  · rintro ⟨hfree, htaken⟩
    exact ⟨by simpa using hfree, by simpa using htaken⟩

/-- Storage is never shared. -/
theorem storages_distinct :
    (∀ as : List Action, (storages {} as).Nodup) ∧
      (∀ (as : List Action) name ty storage t', (run {} as).declare name ty = .ok (storage, t') →
        Search (storages {} as) name name 1 storage ∧
          ∃ k, storage = variant name k ∧ FirstFree (storages {} as) name k) ∧
        ∀ taken name, ∃! storage, Search taken name name 1 storage := by
  refine ⟨fun as => ?_, fun as name ty storage t' hdeclare => ?_, search_ends⟩
  · rw [storages_eq_reverse_taken]
    exact (List.reverse_perm _).nodup_iff.mpr (nodup_taken_run List.nodup_nil)
  · obtain ⟨k, hstorage, hfirst⟩ := exists_firstFree (run {} as).taken name
    obtain rfl : storage = variant name k := (storage_of_declare hdeclare).trans hstorage
    have hgiven : FirstFree (storages {} as) name k := by
      rw [storages_eq_reverse_taken]
      exact firstFree_reverse.mpr hfirst
    exact ⟨Search.of_firstFree hgiven (Nat.zero_le k), k, rfl, hgiven⟩

/-- A name that looks like a variant is declared before the name that it is a variant of, and that
    one then three times, in a scope that is closed and in its sibling. -/
theorem storages_dotted :
    let as : List Action := [.enter, .declare "x.1" .number, .declare "x" .number, .enter,
      .declare "x" .bool, .declare "x" .bool, .leave, .enter, .lookup "x"]
    storages {} as = ["x.1", "x", "x.2"] ∧
      ∃ t', (run {} as).declare "x" .str = .ok ("x.3", t') ∧ Search (storages {} as) "x" "x" 1 "x.3" ∧
        ∃ k, "x.3" = variant "x" k ∧ FirstFree (storages {} as) "x" k := by
  intro as
  refine ⟨by decide +kernel, _, rfl, ?_⟩
  exact storages_distinct.2.1 as "x" .str "x.3" _ rfl

end TreeCompiler.ScopeTable
