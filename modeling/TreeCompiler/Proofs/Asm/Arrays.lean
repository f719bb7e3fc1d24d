import TreeCompiler.Proofs.Asm.Machine
import TreeCompiler.Proofs.Code.Heap

namespace TreeCompiler

open Code

namespace Code.Heap

variable {heap heap' : Heap}

/-- The bytes of the arrays that exist: a word for the length of each and one for each element. -/
def Covers (heap : Heap) (c : Nat) : Prop :=
  ∃ b ws, heap b = some ws ∧ b.toNat ≤ c ∧ c < b.toNat + 8 * (ws.length + 1)

theorem SameShape.covers (hshape : heap.SameShape heap') {c : Nat} (hcovers : heap.Covers c) :
    heap'.Covers c := by
  obtain ⟨b, ws, hb, hlo, hhi⟩ := hcovers
  obtain ⟨ws', hb', hlength⟩ := hshape.exists_some hb
  exact ⟨b, ws', hb', hlo, by omega⟩

end Code.Heap

namespace Asm

/-- Memory holds the arrays that exist, each in space of its own: the length of an array at its
    address, the elements behind it. -/
structure Held (m : Memory) (heap : Heap) : Prop where
  room : ∀ {b ws}, heap b = some ws → b.toNat + 8 * (ws.length + 1) ≤ 2 ^ 47
  length : ∀ {b ws}, heap b = some ws → m.read b.toNat = BitVec.ofNat 64 ws.length
  elems : ∀ {b ws}, heap b = some ws → ∀ (i : Nat) w, ws[i]? = some w → m.read (b.toNat + 8 * (i + 1)) = w
  apart : ∀ {b ws b' ws'}, heap b = some ws → heap b' = some ws' → b ≠ b' →
    b.toNat + 8 * (ws.length + 1) ≤ b'.toNat ∨ b'.toNat + 8 * (ws'.length + 1) ≤ b.toNat

namespace Held

variable {m m' : Memory} {heap heap' : Heap} {base : Word} {ws : List Word}

/-- Arrays are held as long as their bytes are kept. -/
theorem congr (hheld : Held m heap) (hmem : ∀ c, heap.Covers c → m' c = m c) : Held m' heap where
  room := hheld.room
  length {b ws} hb := by
    rw [← hheld.length hb]
    exact Memory.read_congr fun c hlo hhi => hmem c ⟨b, ws, hb, hlo, by omega⟩
  elems {b ws} hb i w hw := by
    have hi : i < ws.length := (List.getElem?_eq_some_iff.mp hw).1
    rw [← hheld.elems hb i w hw]
    exact Memory.read_congr fun c hlo hhi => hmem c ⟨b, ws, hb, by omega, by omega⟩
  apart := hheld.apart

theorem empty (m : Memory) : Held m .empty where
  room hb := by cases hb
  length hb := by cases hb
  elems hb := by cases hb
  apart hb := by cases hb

section Held

variable (hheld : Held m heap)
include hheld

theorem free (bases : List Word) : Held m (heap.free bases) where
  room hb := hheld.room (Heap.free_eq_some_iff.mp hb).2
  length hb := hheld.length (Heap.free_eq_some_iff.mp hb).2
  elems hb := hheld.elems (Heap.free_eq_some_iff.mp hb).2
  apart hb hb' := hheld.apart (Heap.free_eq_some_iff.mp hb).2 (Heap.free_eq_some_iff.mp hb').2

theorem length?_eq {v : Word} (hv : heap.length? base = some v) : m.read base.toNat = v := by
  obtain ⟨ws, hws, rfl⟩ := Option.map_eq_some_iff.mp hv
  exact hheld.length hws

/-- Where an element of an array lies. -/
theorem address_toNat (hws : heap base = some ws) {position : Word} (hlt : position.toNat < ws.length) :
    (base + position * 8 + 8).toNat = base.toNat + 8 * (position.toNat + 1) := by
  have hroom := hheld.room hws
  have hscaled : (position * 8).toNat = position.toNat * 8 := by
    rw [BitVec.toNat_mul]
    exact Nat.mod_eq_of_lt (by simp; omega)
  rw [BitVec.toNat_add, BitVec.toNat_add, hscaled]
  simp
  omega

theorem get?_eq {position v : Word} (hv : heap.get? base position = some v) :
    m.read (base + position * 8 + 8).toNat = v := by
  obtain ⟨ws, hws, hget⟩ := Option.bind_eq_some_iff.mp hv
  rw [hheld.address_toNat hws (List.getElem?_eq_some_iff.mp hget).1]
  exact hheld.elems hws _ _ hget

/-- A new array is held if it is written to bytes of its own. -/
theorem build (hroom : base.toNat + 8 * (ws.length + 1) ≤ 2 ^ 47)
    (hlength : m.read base.toNat = BitVec.ofNat 64 ws.length)
    (helems : ∀ (i : Nat) w, ws[i]? = some w → m.read (base.toNat + 8 * (i + 1)) = w)
    (hfree : ∀ c, base.toNat ≤ c → c < base.toNat + 8 * (ws.length + 1) → ¬ heap.Covers c) :
    Held m (heap.build base ws) := by
  -- An array that exists already lies wholly on one side of the new one.
  have haside : ∀ {b : Word} {us : List Word}, heap b = some us →
      b.toNat + 8 * (us.length + 1) ≤ base.toNat ∨ base.toNat + 8 * (ws.length + 1) ≤ b.toNat := by
    intro b us hb
    have hlo : ¬ (base.toNat ≤ b.toNat ∧ b.toNat < base.toNat + 8 * (ws.length + 1)) := fun hin =>
      hfree b.toNat hin.1 hin.2 ⟨b, us, hb, Nat.le_refl _, by omega⟩
    have hhi : ¬ (b.toNat ≤ base.toNat ∧ base.toNat < b.toNat + 8 * (us.length + 1)) := fun hin =>
      hfree base.toNat (Nat.le_refl _) (by omega) ⟨b, us, hb, hin.1, hin.2⟩
    omega
  refine ⟨fun hb => ?_, fun hb => ?_, fun hb i w hw => ?_, fun hb hb' hne => ?_⟩
  · rcases Heap.build_eq_some hb with ⟨rfl, rfl⟩ | ⟨_, hb⟩
    · exact hroom
    · exact hheld.room hb
  · rcases Heap.build_eq_some hb with ⟨rfl, rfl⟩ | ⟨_, hb⟩
    · exact hlength
    · exact hheld.length hb
  · rcases Heap.build_eq_some hb with ⟨rfl, rfl⟩ | ⟨_, hb⟩
    · exact helems i w hw
    · exact hheld.elems hb i w hw
  · rcases Heap.build_eq_some hb with ⟨rfl, rfl⟩ | ⟨_, hold⟩ <;>
      rcases Heap.build_eq_some hb' with ⟨rfl, rfl⟩ | ⟨_, hold'⟩
    · exact absurd rfl hne
    · exact (haside hold').symm
    · exact haside hold
    · exact hheld.apart hold hold' hne

/-- Writing an element of an array changes that element and nothing else that is held. -/
theorem set {position v : Word} (hset : heap.set? base position v = some heap') :
    Held (m.write (base + position * 8 + 8).toNat v) heap' := by
  obtain ⟨ws, hws, hlt, rfl⟩ := Heap.set?_eq_some_iff.mp hset
  have hroom := hheld.room hws
  rw [hheld.address_toNat hws hlt]
  have hkept : ∀ {b : Word} {us : List Word}, b ≠ base → heap b = some us → ∀ a, b.toNat ≤ a →
      a + 8 ≤ b.toNat + 8 * (us.length + 1) →
        (m.write (base.toNat + 8 * (position.toNat + 1)) v).read a = m.read a := by
    intro b us hne hb a hlo hhi
    have haside := hheld.apart hb hws hne
    exact Memory.read_write_of_disjoint _ _ (by omega)
  refine ⟨fun hb => ?_, fun hb => ?_, fun hb i w hw => ?_, fun hb hb' hne => ?_⟩
  · rcases Heap.build_eq_some hb with ⟨rfl, rfl⟩ | ⟨_, hb⟩
    · simpa using hroom
    · exact hheld.room hb
  · rcases Heap.build_eq_some hb with ⟨rfl, rfl⟩ | ⟨hne, hb⟩
    · rw [Memory.read_write_of_disjoint _ _ (by omega), hheld.length hws, List.length_set]
    · rw [hkept hne hb _ (Nat.le_refl _) (by omega), hheld.length hb]
  · rcases Heap.build_eq_some hb with ⟨rfl, rfl⟩ | ⟨hne, hb⟩
    · by_cases hi : i = position.toNat
      · subst hi
        rw [List.getElem?_set_self hlt, Option.some.injEq] at hw
        rw [Memory.read_write_same, hw]
      · rw [List.getElem?_set_ne (Ne.symm hi)] at hw
        rw [Memory.read_write_of_disjoint _ _ (by omega), hheld.elems hws i w hw]
    · have hi : i < _ := (List.getElem?_eq_some_iff.mp hw).1
      rw [hkept hne hb _ (by omega) (by omega), hheld.elems hb i w hw]
  · rcases Heap.build_eq_some hb with ⟨rfl, rfl⟩ | ⟨_, hold⟩ <;>
      rcases Heap.build_eq_some hb' with ⟨rfl, rfl⟩ | ⟨_, hold'⟩
    · exact absurd rfl hne
    · simpa using hheld.apart hws hold' hne
    · simpa using hheld.apart hold hws hne
    · exact hheld.apart hold hold' hne

end Held

end Held

end Asm

end TreeCompiler
