import Mathlib.Data.List.Induction
import Mathlib.Data.List.Nodup

/-!
Tables that are filled with what is met for the first time, and the positions in them.
-/

namespace TreeCompiler

variable {α β : Type} [DecidableEq α] [DecidableEq β]

/-- One more element is new behind others, or was there before. -/
theorem eraseDups_concat {α : Type} [BEq α] [LawfulBEq α] (l : List α) (a : α) :
    (l ++ [a]).eraseDups = if a ∈ l then l.eraseDups else l.eraseDups ++ [a] := by
  rw [List.eraseDups_append]
  by_cases ha : a ∈ l <;> simp [List.removeAll, ha, List.eraseDups_cons]

theorem nodup_eraseDups (l : List α) : l.eraseDups.Nodup := by
  induction l using List.reverseRecOn with
  | nil => exact List.nodup_nil
  | append_singleton l a ih =>
    rw [eraseDups_concat]
    split
    · exact ih
    · next ha =>
      refine List.nodup_append.mpr ⟨ih, List.nodup_singleton a, fun b hb c hc heq => ha ?_⟩
      rw [← List.mem_singleton.mp hc, ← heq]
      exact List.mem_eraseDups.mp hb

theorem idxOf?_map_of_injective {g : α → β} (hg : g.Injective) (l : List α) (a : α) :
    (l.map g).idxOf? (g a) = l.idxOf? a := by
  have hsame : ((fun b => b == g a) ∘ g) = fun b => b == a := by
    funext b
    exact decide_eq_decide.mpr hg.eq_iff
  rw [List.idxOf?, List.findIdx?_map, hsame]
  rfl

theorem idxOf?_concat (l : List α) (a b : α) :
    (l ++ [a]).idxOf? b = (l.idxOf? b).or (if b = a then some l.length else none) := by
  rw [List.idxOf?, List.findIdx?_append, List.findIdx?_singleton]
  by_cases hb : b = a
  · simp [hb]
  · simp [hb, Ne.symm hb]

theorem idxOf?_of_getElem? {l : List α} (hl : l.Nodup) {k : Nat} {a : α} (hk : l[k]? = some a) :
    l.idxOf? a = some k := by
  obtain ⟨hlt, rfl⟩ := List.getElem?_eq_some_iff.mp hk
  refine List.idxOf?_eq_some_iff.mpr ⟨hlt, rfl, fun j hj heq => ?_⟩
  exact absurd ((List.Nodup.getElem_inj_iff hl).mp heq) (by omega)

end TreeCompiler
