import TreeCompiler.Scope

namespace TreeCompiler

/-- Numbers have different numerals. -/
theorem numeral_inj {m n : Nat} (heq : toString m = toString n) : m = n := by
  have hdigits := congrArg (fun s : String => Nat.ofDigitChars 10 s.toList 0) heq
  simpa [Nat.toString_eq_ofList_toDigits] using hdigits

namespace ScopeTable

/-- A variant that is taken was only given up after all before it were found taken too. -/
theorem mem_taken_of_freeVariant {taken : List String} {name : String} {number tries : Nat}
    (htaken : freeVariant taken name number tries ∈ taken) {k : Nat} (hk : k ≤ tries) :
    name ++ "." ++ toString (number + k) ∈ taken := by
  induction tries generalizing number k with
  | zero =>
    cases Nat.le_zero.mp hk
    exact htaken
  | succ tries ih =>
    simp only [freeVariant] at htaken
    split at htaken
    · next hfirst =>
      cases k with
      | zero => exact hfirst
      | succ k =>
        rw [show number + (k + 1) = number + 1 + k by omega]
        exact ih htaken (by omega)
    · next hfirst => exact absurd htaken hfirst

/-- A new declaration gets storage that is not taken: there are more variants than taken names. -/
theorem storageName_not_mem (taken : List String) (name : String) : storageName taken name ∉ taken := by
  unfold storageName
  split
  · intro htaken
    have hnodup : ((List.range (taken.length + 1)).map fun k => name ++ "." ++ toString (1 + k)).Nodup := by
      refine List.Pairwise.map _ (fun i j hne heq => hne ?_) List.nodup_range
      have hnumber := numeral_inj ((String.append_right_inj _).mp heq)
      omega
    have hsubset : ((List.range (taken.length + 1)).map fun k => name ++ "." ++ toString (1 + k)) ⊆ taken := by
      intro variant hvariant
      obtain ⟨k, hk, rfl⟩ := List.mem_map.mp hvariant
      rw [List.mem_range] at hk
      exact mem_taken_of_freeVariant htaken (by omega)
    have hlength := hnodup.length_le_of_subset hsubset
    simp only [List.length_map, List.length_range] at hlength
    omega
  · next hfree => exact hfree

/-- A declaration binds the name in the innermost scope, where it was not bound, to storage that
    was not taken. -/
theorem declare_ok {t t' : ScopeTable} {name storage : String} {ty : Code.Ty}
    (hdeclare : t.declare name ty = .ok (storage, t')) :
    ∃ scope outer, t.scopes = scope :: outer ∧ find? scope name = none ∧ storage ∉ t.taken ∧
      t' = { scopes := (⟨name, storage, ty⟩ :: scope) :: outer, taken := storage :: t.taken } := by
  unfold declare at hdeclare
  split at hdeclare
  · cases hdeclare
  · next scope outer hscopes =>
    split at hdeclare
    · cases hdeclare
    · next hnew =>
      cases hdeclare
      exact ⟨scope, outer, hscopes, by simpa using hnew, storageName_not_mem _ _, rfl⟩

theorem leave_ok {t t' : ScopeTable} (hleave : t.leave = .ok t') :
    ∃ scope outer, t.scopes = scope :: outer ∧ t' = { t with scopes := outer } := by
  unfold leave at hleave
  split at hleave
  · cases hleave
  · next scope outer hscopes =>
    cases hleave
    exact ⟨scope, outer, hscopes, rfl⟩

theorem lookup_ok {t : ScopeTable} {name : String} {symbol : Symbol}
    (hlookup : t.lookup name = .ok symbol) : t.scopes.findSome? (find? · name) = some symbol := by
  unfold lookup at hlookup
  split at hlookup
  · next symbol' hfind => cases hlookup; exact hfind
  · cases hlookup

end ScopeTable

end TreeCompiler
