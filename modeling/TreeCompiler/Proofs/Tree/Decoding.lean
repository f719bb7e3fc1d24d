import TreeCompiler.Proofs.Outcome
import TreeCompiler.Proofs.Tree.Rendition

/-!
Which trees decoding can give: exactly the well-formed ones.
-/

namespace TreeCompiler.Tree

open Yaml (Node)

section Parts

variable {f : Fields} {field name : String}

theorem name_of_nameOf {n : Node} (hread : nameOf n = .ok name) : name ≠ "" := by
  unfold nameOf at hread
  split at hread
  · split at hread
    · cases hread
    · next hvalue =>
      cases hread
      exact fun hempty => hvalue (.inr hempty)
  · cases hread

theorem Fields.name_ne (hread : f.name field = .ok name) : name ≠ "" := by
  unfold Fields.name at hread
  split at hread
  · split at hread
    · cases hread
    · next hvalue =>
      cases hread
      exact hvalue
  · cases hread

theorem Fields.ty_mem {ty : Ty} (hread : f.ty field = .ok ty) : ty ∈ Ty.all := by
  unfold Fields.ty at hread
  split at hread
  · cases hread
    decide
  · split at hread
    · next hname =>
      cases hread
      exact List.mem_of_find?_eq_some hname
    · cases hread

theorem Param.wellFormed_of_param {n : Node} {p : Param} (hread : Fields.param n = .ok p) : p.WellFormed := by
  unfold Fields.param at hread
  rw [Located.within, mapError_eq_ok_iff] at hread
  split at hread
  · obtain ⟨name, hname, hread⟩ := bind_eq_ok_iff.mp hread
    obtain ⟨ty, hty, hread⟩ := bind_eq_ok_iff.mp hread
    cases hread
    exact ⟨Fields.name_ne hname, Fields.ty_mem hty⟩
  · cases hread

theorem wellFormed_of_mapM {items : List Node} {ps : List Param} (hread : items.mapM Fields.param = .ok ps) :
    ∀ p ∈ ps, p.WellFormed := by
  induction items generalizing ps with
  | nil =>
    cases hread
    simp
  | cons n items ih =>
    rw [List.mapM_cons] at hread
    obtain ⟨p, hp, hread⟩ := bind_eq_ok_iff.mp hread
    obtain ⟨rest, hrest, hread⟩ := bind_eq_ok_iff.mp hread
    cases hread
    exact List.forall_mem_cons.mpr ⟨Param.wellFormed_of_param hp, ih hrest⟩

theorem Header.wellFormed_of_header {h : Header} (hread : f.header = .ok h) : h.WellFormed := by
  obtain ⟨name, hname, hread⟩ := bind_eq_ok_iff.mp hread
  obtain ⟨ret, hret, hread⟩ := bind_eq_ok_iff.mp hread
  obtain ⟨isPublic, _, hread⟩ := bind_eq_ok_iff.mp hread
  obtain ⟨isExternal, _, hread⟩ := bind_eq_ok_iff.mp hread
  obtain ⟨params, hparams, hread⟩ := bind_eq_ok_iff.mp hread
  cases hread
  refine ⟨Fields.name_ne hname, ?_, Fields.ty_mem hret⟩
  unfold Fields.params at hparams
  split at hparams
  · cases hparams
    simp
  · exact wellFormed_of_mapM hparams
  · cases hparams

/-- A scalar is a well-formed literal, and void only if it is null. -/
theorem Literal.wellFormed_of_ofScalar {line : Nat} {tag value : String} {l : Literal}
    (hread : ofScalar line tag value = .ok l) : l.WellFormed ∧ (l = .void → tag = "!!null") := by
  unfold ofScalar at hread
  split at hread
  · split at hread
    · cases hread
      exact ⟨trivial, nofun⟩
    · cases hread
  split at hread
  · split at hread
    · cases hread
      exact ⟨trivial, nofun⟩
    · cases hread
  split at hread
  · next htag =>
    cases hread
    exact ⟨trivial, fun _ => htag⟩
  split at hread
  · cases hread
    refine ⟨?_, nofun⟩
    rw [WellFormed, toString?_ofString]
    rfl
  · cases hread

end Parts

/-- Whatever a node is decoded to is well-formed, and only null is decoded to the void literal. -/
def Sound (n : Node) : Prop :=
  ∀ x, Expr.ofNode n = .ok x → x.WellFormed ∧
    (x.isVoid = true → ∃ line value, n = .scalar line "!!null" value)

section Step

variable {f : Fields} {field : String} {x : Expr} {xs : List Expr}

theorem ofNodes_sound {items : List Node} (ih : ∀ m ∈ items, Sound m) (hread : Expr.ofNodes items = .ok xs) :
    WellFormedAll xs := by
  induction items generalizing xs with
  | nil =>
    rw [Expr.ofNodes] at hread
    cases hread
    exact trivial
  | cons n items ihitems =>
    rw [Expr.ofNodes] at hread
    obtain ⟨y, hy, hread⟩ := bind_eq_ok_iff.mp hread
    obtain ⟨ys, hys, hread⟩ := bind_eq_ok_iff.mp hread
    cases hread
    exact ⟨(ih n List.mem_cons_self y hy).1, ihitems (fun m hm => ih m (List.mem_cons_of_mem _ hm)) hys⟩

theorem ofList_sound {n : Node} (ih : ∀ m, sizeOf m < sizeOf n → Sound m) (hread : Expr.ofList n = .ok xs) :
    WellFormedAll xs := by
  rw [Expr.ofList.eq_def] at hread
  split at hread
  · next line items =>
    refine ofNodes_sound (fun m hm => ih m ?_) hread
    have hsize := List.sizeOf_lt_of_mem hm
    rw [Node.sequence.sizeOf_spec]
    omega
  · cases hread

-- The fields of an expression are smaller nodes, and those are known to be decoded well.
variable (ih : ∀ m, sizeOf m < sizeOf f → Sound m)

include ih

theorem ofField_sound (hread : Expr.ofField f field = .ok x) : x.WellFormed := by
  rw [Expr.ofField] at hread
  split at hread
  · next n hget =>
    rw [Located.within, mapError_eq_ok_iff] at hread
    exact (ih n (Fields.sizeOf_get?_lt hget) x hread).1
  · cases hread

theorem ofOptionalField_sound (hread : Expr.ofOptionalField f field = .ok x) :
    x.isMissing = true ∨ x.WellFormed := by
  rw [Expr.ofOptionalField] at hread
  split at hread
  · exact .inr (ofField_sound ih hread)
  · cases hread
    exact .inl rfl

theorem ofListField_sound (hread : Expr.ofListField f field = .ok xs) : WellFormedAll xs := by
  rw [Expr.ofListField] at hread
  split at hread
  · next n hget =>
    have hn := Fields.sizeOf_get?_lt hget
    exact ofList_sound (fun m hm => ih m (Nat.lt_trans hm hn)) hread
  · cases hread
    exact trivial

theorem ofFields_sound {form : Option Form} (hread : Expr.ofFields form f = .ok x) :
    x.WellFormed ∧ x.isVoid = false := by
  rw [Expr.ofFields.eq_def] at hread
  split at hread
  · obtain ⟨name, hname, hread⟩ := bind_eq_ok_iff.mp hread
    obtain ⟨ty, hty, hread⟩ := bind_eq_ok_iff.mp hread
    obtain ⟨value, hvalue, hread⟩ := bind_eq_ok_iff.mp hread
    cases hread
    exact ⟨⟨Fields.name_ne hname, Fields.ty_mem hty, ofField_sound ih hvalue⟩, rfl⟩
  · obtain ⟨name, hname, hread⟩ := bind_eq_ok_iff.mp hread
    obtain ⟨value, hvalue, hread⟩ := bind_eq_ok_iff.mp hread
    cases hread
    exact ⟨⟨Fields.name_ne hname, ofField_sound ih hvalue⟩, rfl⟩
  · obtain ⟨op, hop, hread⟩ := bind_eq_ok_iff.mp hread
    obtain ⟨left, hleft, hread⟩ := bind_eq_ok_iff.mp hread
    obtain ⟨right, hright, hread⟩ := bind_eq_ok_iff.mp hread
    cases hread
    exact ⟨⟨Fields.name_ne hop, ofField_sound ih hleft, ofField_sound ih hright⟩, rfl⟩
  · obtain ⟨op, hop, hread⟩ := bind_eq_ok_iff.mp hread
    obtain ⟨arg, harg, hread⟩ := bind_eq_ok_iff.mp hread
    cases hread
    exact ⟨⟨Fields.name_ne hop, ofField_sound ih harg⟩, rfl⟩
  · obtain ⟨test, htest, hread⟩ := bind_eq_ok_iff.mp hread
    obtain ⟨yes, hyes, hread⟩ := bind_eq_ok_iff.mp hread
    obtain ⟨no, hno, hread⟩ := bind_eq_ok_iff.mp hread
    cases hread
    exact ⟨⟨ofField_sound ih htest, ofField_sound ih hyes, ofOptionalField_sound ih hno⟩, rfl⟩
  · obtain ⟨test, htest, hread⟩ := bind_eq_ok_iff.mp hread
    obtain ⟨body, hbody, hread⟩ := bind_eq_ok_iff.mp hread
    cases hread
    exact ⟨⟨ofField_sound ih htest, ofField_sound ih hbody⟩, rfl⟩
  · obtain ⟨header, hheader, hread⟩ := bind_eq_ok_iff.mp hread
    have hwell := Header.wellFormed_of_header hheader
    dsimp only at hread
    split at hread
    · next hexternal =>
      cases hread
      exact ⟨⟨hwell, (if_pos hexternal).mpr rfl⟩, rfl⟩
    · next hinternal =>
      obtain ⟨body, hbody, hread⟩ := bind_eq_ok_iff.mp hread
      cases hread
      exact ⟨⟨hwell, (if_neg hinternal).mpr (ofField_sound ih hbody)⟩, rfl⟩
  · obtain ⟨name, hname, hread⟩ := bind_eq_ok_iff.mp hread
    obtain ⟨args, hargs, hread⟩ := bind_eq_ok_iff.mp hread
    cases hread
    exact ⟨⟨Fields.name_ne hname, ofListField_sound ih hargs⟩, rfl⟩
  · obtain ⟨target, htarget, hread⟩ := bind_eq_ok_iff.mp hread
    obtain ⟨position, hposition, hread⟩ := bind_eq_ok_iff.mp hread
    cases hread
    exact ⟨⟨ofField_sound ih htarget, ofField_sound ih hposition⟩, rfl⟩
  · obtain ⟨target, htarget, hread⟩ := bind_eq_ok_iff.mp hread
    obtain ⟨position, hposition, hread⟩ := bind_eq_ok_iff.mp hread
    obtain ⟨value, hvalue, hread⟩ := bind_eq_ok_iff.mp hread
    cases hread
    exact ⟨⟨ofField_sound ih htarget, ofField_sound ih hposition, ofField_sound ih hvalue⟩, rfl⟩
  · cases hread

end Step

section Content

variable {n : Node} {x : Expr}

/-- Where nothing may stand, null is nothing. -/
theorem ofOptional_sound (hn : Sound n) (hread : Expr.ofOptional n = .ok x) :
    x.isMissing = true ∨ x.isVoid = false ∧ x.WellFormed := by
  have hother : (∀ line value, n ≠ .scalar line "!!null" value) → Expr.ofNode n = .ok x →
      x.isVoid = false ∧ x.WellFormed := by
    intro hnull hread
    obtain ⟨hwell, hvoid⟩ := hn x hread
    refine ⟨Bool.eq_false_iff.mpr fun htrue => ?_, hwell⟩
    obtain ⟨line, value, heq⟩ := hvoid htrue
    exact hnull line value heq
  rw [Expr.ofOptional.eq_def] at hread
  split at hread
  · next line tag value =>
    split at hread
    · cases hread
      exact .inl rfl
    · next htag =>
      refine .inr (hother (fun line' value' heq => ?_) hread)
      cases heq
      exact htag rfl
  · next hscalar => exact .inr (hother (fun line value => hscalar line "!!null" value) hread)

theorem ofForm_sound {form : Option Form} (ih : ∀ m, sizeOf m ≤ sizeOf n → Sound m)
    (hread : Expr.ofForm form n = .ok x) : x.WellFormed ∧ x.isVoid = false := by
  rw [Expr.ofForm.eq_def] at hread
  split at hread
  · obtain ⟨body, hbody, rfl⟩ := functor_map_eq_ok_iff.mp hread
    exact ⟨ofList_sound (fun m hm => ih m (Nat.le_of_lt hm)) hbody, rfl⟩
  · obtain ⟨name, hname, rfl⟩ := functor_map_eq_ok_iff.mp hread
    exact ⟨name_of_nameOf hname, rfl⟩
  · obtain ⟨name, hname, rfl⟩ := functor_map_eq_ok_iff.mp hread
    exact ⟨name_of_nameOf hname, rfl⟩
  · obtain ⟨name, hname, rfl⟩ := functor_map_eq_ok_iff.mp hread
    exact ⟨name_of_nameOf hname, rfl⟩
  · obtain ⟨name, hname, rfl⟩ := functor_map_eq_ok_iff.mp hread
    exact ⟨name_of_nameOf hname, rfl⟩
  · obtain ⟨value, hvalue, rfl⟩ := functor_map_eq_ok_iff.mp hread
    exact ⟨(ih n (Nat.le_refl _) value hvalue).1, rfl⟩
  · obtain ⟨code, hcode, rfl⟩ := functor_map_eq_ok_iff.mp hread
    exact ⟨ofOptional_sound (ih n (Nat.le_refl _)) hcode, rfl⟩
  · obtain ⟨value, hvalue, rfl⟩ := functor_map_eq_ok_iff.mp hread
    exact ⟨ofOptional_sound (ih n (Nat.le_refl _)) hvalue, rfl⟩
  · split at hread
    · next line f =>
      refine ofFields_sound (fun m hm => ih m ?_) hread
      rw [Node.mapping.sizeOf_spec]
      omega
    · cases hread

end Content

theorem sound_node (n : Node) : Sound n := by
  -- The content of a form is a smaller node than the mapping that names the form.
  induction hk : sizeOf n using Nat.strongRecOn generalizing n with
  | _ k ih =>
    subst hk
    intro x hread
    rw [Expr.ofNode.eq_def] at hread
    split at hread
    · next line tag value =>
      obtain ⟨l, hl, rfl⟩ := functor_map_eq_ok_iff.mp hread
      obtain ⟨hwell, htag⟩ := Literal.wellFormed_of_ofScalar hl
      refine ⟨hwell, fun hvoid => ⟨line, value, ?_⟩⟩
      cases l with
      | void => rw [htag rfl]
      | _ => cases hvoid
    · next line items =>
      obtain ⟨xs, hxs, rfl⟩ := functor_map_eq_ok_iff.mp hread
      refine ⟨ofNodes_sound (fun m hm => ih _ ?_ m rfl) hxs, Bool.noConfusion⟩
      have hsize := List.sizeOf_lt_of_mem hm
      rw [Node.sequence.sizeOf_spec]
      omega
    · next line key value =>
      rw [Located.within, mapError_eq_ok_iff] at hread
      have hsize : sizeOf value < sizeOf (Node.mapping line [(key, value)]) := by
        simp only [Node.mapping.sizeOf_spec, List.cons.sizeOf_spec, Prod.mk.sizeOf_spec]
        omega
      obtain ⟨hwell, hvoid⟩ := ofForm_sound (fun m hm => ih _ (Nat.lt_of_le_of_lt hm hsize) m rfl) hread
      exact ⟨hwell, fun htrue => absurd htrue (by rw [hvoid]; decide)⟩
    · cases hread
    · cases hread

theorem wellFormedAll_of_ofNode {root : Node} {p : Program} (hread : Program.ofNode root = .ok p) :
    WellFormedAll p.body := by
  unfold Program.ofNode at hread
  split at hread
  · obtain ⟨xs, hxs, rfl⟩ := functor_map_eq_ok_iff.mp hread
    exact ofNodes_sound (fun n _ => sound_node n) hxs
  · cases hread

theorem Program.ofNode_toNodes (line : Nat) {p : Program} (hp : WellFormedAll p.body) :
    Program.ofNode (.sequence line (toNodes line p.body)) = .ok p := by
  rw [Program.ofNode, Expr.ofNodes_toNodes line p.body hp]
  rfl

/-- Decoding gives the well-formed trees and no others, and undoes the rendition of each of them. -/
theorem decoded_iff_wellFormed (x : Expr) :
    ((∃ n, Expr.ofNode n = .ok x) ↔ x.WellFormed) ∧
      ∀ line, x.WellFormed → Expr.ofNode (x.toNode line) = .ok x := by
  refine ⟨⟨fun ⟨n, hread⟩ => (sound_node n x hread).1, fun hwell => ?_⟩, fun line =>
    Expr.ofNode_toNode line x⟩
  exact ⟨x.toNode 0, Expr.ofNode_toNode 0 x hwell⟩

/-- Both ends of the range of numbers, a function with a body and one without, and a return of
    nothing are read back as they are written. -/
theorem decoded_extremes :
    let x : Expr := .block [.func ⟨"f", [⟨"s", .str⟩], .void, true, false⟩ (.ret .missing),
      .func ⟨"g", [], .array, false, true⟩ .missing, .array [.literal (.number Int64.minValue),
        .literal (.number Int64.maxValue), .literal (.str (Bytes.ofString "hi")), .literal .void]]
    x.WellFormed ∧ Expr.ofNode (x.toNode 1) = .ok x := by
  intro x
  have hwell : x.WellFormed := by
    simp [x, Expr.WellFormed, WellFormedAll, Header.WellFormed, Param.WellFormed, Literal.WellFormed, Ty.all,
      Expr.isMissing, toString?_ofString]
  exact ⟨hwell, (decoded_iff_wellFormed x).2 1 hwell⟩

end TreeCompiler.Tree
