import Mathlib.Data.List.Nodup
import Mathlib.Logic.Relation
import TreeCompiler.Proofs.Tree.Rendition

/-!
The order of fields does not matter to decoding, nor do fields that are not asked for.
-/

namespace TreeCompiler.Tree

open Yaml (Node)

/-- What a node is read as, by where it stands in a document. -/
inductive Role where
  /-- A name, a type or a truth value. -/
  | text
  | expr
  /-- A sequence of expressions. -/
  | exprs
  /-- The mapping that holds the fields of a form. -/
  | fields (form : Form)
  /-- A sequence of parameters. -/
  | params
  /-- The mapping that holds the fields of a parameter. -/
  | param
  /-- What stands under a key that names no form. -/
  | unknown
  deriving DecidableEq, Repr

/-- What the content of a form is read as. -/
def Form.content : Form → Role
  | .block => .exprs
  | .var | .input | .label | .goto => .text
  | .out | .exit | .ret => .expr
  | form => .fields form

/-- The fields that a form uses, and what each of them is read as. -/
def Form.uses : Form → List (String × Role)
  | .define => [("name", .text), ("type", .text), ("value", .expr)]
  | .assign => [("name", .text), ("value", .expr)]
  | .binary => [("op", .text), ("left", .expr), ("right", .expr)]
  | .unary => [("op", .text), ("arg", .expr)]
  | .cond => [("cond", .expr), ("then", .expr), ("else", .expr)]
  | .loop => [("cond", .expr), ("body", .expr)]
  | .func => [("name", .text), ("ret", .text), ("pub", .text), ("extern", .text), ("params", .params),
      ("body", .expr)]
  | .call => [("name", .text), ("args", .exprs)]
  | .index => [("target", .expr), ("index", .expr)]
  | .setIndex => [("target", .expr), ("index", .expr), ("value", .expr)]
  | _ => []

namespace Role

/-- The fields that are used of a mapping, if it is one that holds fields. -/
def uses? : Role → Option (List (String × Role))
  | .fields form => some form.uses
  | .param => some [("name", .text), ("type", .text)]
  | _ => none

/-- What the items of a sequence are read as, if it may be one. -/
def item? : Role → Option Role
  | .expr | .exprs => some .expr
  | .params => some .param
  | _ => none

/-- What stands under the only key of an expression is read as the content of a form. -/
def ofKey (key : String) : Role :=
  match Form.ofKey? key with
  | some form => form.content
  | none => .unknown

/-- Whether what a collection holds is looked at, and not only that it is a collection. -/
def looksInto : Role → Node → Bool
  | .expr, .sequence .. => true
  | .expr, .mapping _ [_] => true
  | .exprs, .sequence .. => true
  | .params, .sequence .. => true
  | .fields _, .mapping .. => true
  | .param, .mapping .. => true
  | _, _ => false

/-- A field is used once. -/
theorem uses?_unique {role : Role} {uses : List (String × Role)} {first second : String × Role}
    (hrole : role.uses? = some uses) (hfirst : first ∈ uses) (hsecond : second ∈ uses)
    (hname : first.1 = second.1) : first = second := by
  have hnodup : (uses.map (·.1)).Nodup := by
    cases role <;> cases hrole
    case fields form => cases form <;> decide
    case param => decide
  exact List.inj_on_of_nodup_map hnodup hfirst hsecond hname

end Role

/-- Two collections of one kind on one line, whatever they hold. -/
inductive SameOutside : Node → Node → Prop where
  | sequence {line items items'} : SameOutside (.sequence line items) (.sequence line items')
  | mapping {line f f'} : SameOutside (.mapping line f) (.mapping line f')

/-- One change of a document that decoding does not notice, at a place of any depth: fields with
    different keys are put in another order, or a field that is not used is added. -/
inductive Rearranged : Role → Node → Node → Prop where
  | reorder {role uses line f f'} (hrole : role.uses? = some uses) (hkeys : (f.map (·.1.value)).Nodup)
      (hperm : f.Perm f') : Rearranged role (.mapping line f) (.mapping line f')
  | add {role uses line f g key value} (hrole : role.uses? = some uses) (hunused : key.value ∉ uses.map (·.1)) :
      Rearranged role (.mapping line (f ++ g)) (.mapping line (f ++ (key, value) :: g))
  | inside {role n n'} (hsame : SameOutside n n') (hn : role.looksInto n = false)
      (hn' : role.looksInto n' = false) : Rearranged role n n'
  | key {line key key' n} (hvalue : key.value = key'.value) :
      Rearranged .expr (.mapping line [(key, n)]) (.mapping line [(key', n)])
  | inField {role uses line f g key inner n n'} (hrole : role.uses? = some uses) (hused : (key.value, inner) ∈ uses)
      (hinner : Rearranged inner n n') :
      Rearranged role (.mapping line (f ++ (key, n) :: g)) (.mapping line (f ++ (key, n') :: g))
  | inItem {role inner line before behind n n'} (hrole : role.item? = some inner) (hinner : Rearranged inner n n') :
      Rearranged role (.sequence line (before ++ n :: behind)) (.sequence line (before ++ n' :: behind))
  | inForm {line key n n'} (hinner : Rearranged (.ofKey key.value) n n') :
      Rearranged .expr (.mapping line [(key, n)]) (.mapping line [(key, n')])

namespace Fields

variable {f f' : Fields} {name : String}

/-- With different keys, the order of fields does not matter. -/
theorem get?_perm (hkeys : (f.map (·.1.value)).Nodup) (hperm : f.Perm f') : get? f name = get? f' name := by
  induction hperm with
  | nil => rfl
  | cons entry _ ih =>
    rw [List.map_cons, List.nodup_cons] at hkeys
    simp only [get?, ih hkeys.2]
  | swap first second rest =>
    have hne : first.1.value ≠ second.1.value := by
      simp only [List.map_cons, List.nodup_cons, List.mem_cons, not_or] at hkeys
      exact fun heq => hkeys.1.1 heq.symm
    simp only [get?]
    by_cases hfirst : first.1.value = name
    · have hsecond : second.1.value ≠ name := fun heq => hne (hfirst.trans heq.symm)
      simp [hfirst, hsecond]
    · simp [hfirst]
  | trans hfirst _ ihfirst ihsecond =>
    exact (ihfirst hkeys).trans (ihsecond ((hfirst.map _).nodup_iff.mp hkeys))

end Fields

/-- The parameters of a node that has to be a sequence of them. -/
def paramsOf (n : Node) : Except Decode.Error (List Param) :=
  match n with
  | .sequence _ items => items.mapM Fields.param
  | _ => .error (.bare (.fieldNotSequence "params"))

/-- The expression of a form from a node that has to hold its fields. -/
def Expr.ofMapping (form : Form) (n : Node) : Except Decode.Error Expr :=
  match n with
  | .mapping _ f => Expr.ofFields (some form) f
  | _ => .error (.bare (.notMapping n.line))

/-- Two nodes are read alike in a role. -/
def Role.Agree : Role → Node → Node → Prop
  | .text, n, n' => n = n' ∨ SameOutside n n'
  | .expr, n, n' => Expr.ofNode n = Expr.ofNode n' ∧ Expr.ofOptional n = Expr.ofOptional n'
  | .exprs, n, n' => Expr.ofList n = Expr.ofList n'
  | .fields form, n, n' => Expr.ofMapping form n = Expr.ofMapping form n'
  | .params, n, n' => paramsOf n = paramsOf n'
  | .param, n, n' => Fields.param n = Fields.param n'
  | .unknown, n, n' => Expr.ofForm none n = Expr.ofForm none n'

theorem Role.Agree.refl (role : Role) (n : Node) : role.Agree n n := by
  cases role <;> simp [Agree]

/-- A field is left out of both, or it stands in both and is read alike. -/
def Fields.AgreeAt (f f' : Fields) (field : String) (role : Role) : Prop :=
  f.get? field = none ∧ f'.get? field = none ∨
    ∃ n n', f.get? field = some n ∧ f'.get? field = some n' ∧ role.Agree n n'

section Congruence

variable {f f' : Fields} {field : String} {role : Role}

theorem Fields.AgreeAt.of_eq (hget : f.get? field = f'.get? field) : f.AgreeAt f' field role := by
  cases hn : f'.get? field with
  | none => exact .inl ⟨hget.trans hn, hn⟩
  | some n => exact .inr ⟨n, n, hget.trans hn, hn, .refl role n⟩

section Texts

variable (hagree : f.AgreeAt f' field .text)
include hagree

/-- Where a text is expected, the nodes are the same or none of them is one. -/
theorem Fields.AgreeAt.text_cases :
    f.get? field = f'.get? field ∨ ∃ n n', f.get? field = some n ∧ f'.get? field = some n' ∧ SameOutside n n' := by
  rcases hagree with ⟨hnone, hnone'⟩ | ⟨n, n', hn, hn', rfl | hsame⟩
  · exact .inl (hnone.trans hnone'.symm)
  · exact .inl (hn.trans hn'.symm)
  · exact .inr ⟨n, n', hn, hn', hsame⟩

theorem Fields.name_congr : f.name field = f'.name field := by
  unfold name
  rcases hagree.text_cases with hget | ⟨n, n', hn, hn', hsame⟩
  · rw [hget]
  · rw [hn, hn']
    cases hsame <;> rfl

theorem Fields.ty_congr : f.ty field = f'.ty field := by
  unfold ty
  rcases hagree.text_cases with hget | ⟨n, n', hn, hn', hsame⟩
  · rw [hget]
  · rw [hn, hn']
    cases hsame <;> rfl

theorem Fields.flag_congr : f.flag field = f'.flag field := by
  unfold flag
  rcases hagree.text_cases with hget | ⟨n, n', hn, hn', hsame⟩
  · rw [hget]
  · rw [hn, hn']
    cases hsame <;> rfl

end Texts

theorem nameOf_congr {n n' : Node} (hagree : Role.text.Agree n n') : nameOf n = nameOf n' := by
  rcases hagree with rfl | hsame
  · rfl
  · cases hsame <;> rfl

theorem Fields.params_eq : f.params = match f.get? "params" with
    | some n => paramsOf n
    | none => .ok [] := by
  unfold params
  cases f.get? "params" with
  | none => rfl
  | some n => cases n <;> rfl

theorem Fields.params_congr (hagree : f.AgreeAt f' "params" .params) : f.params = f'.params := by
  rw [params_eq, params_eq]
  rcases hagree with ⟨hnone, hnone'⟩ | ⟨n, n', hn, hn', heq⟩
  · rw [hnone, hnone']
  · rw [hn, hn']
    exact heq

theorem ofField_eq_match : Expr.ofField f field = match f.get? field with
    | some n => Located.within (.field field) (Expr.ofNode n)
    | none => .error (.bare (.fieldMissing field)) := by
  rw [Expr.ofField]
  split <;> next hget => simp only [hget]

theorem ofField_congr (hagree : f.AgreeAt f' field .expr) : Expr.ofField f field = Expr.ofField f' field := by
  rw [ofField_eq_match, ofField_eq_match]
  rcases hagree with ⟨hnone, hnone'⟩ | ⟨n, n', hn, hn', heq, _⟩
  · rw [hnone, hnone']
  · simp only [hn, hn', heq]

theorem ofOptionalField_congr (hagree : f.AgreeAt f' field .expr) :
    Expr.ofOptionalField f field = Expr.ofOptionalField f' field := by
  rw [Expr.ofOptionalField, Expr.ofOptionalField, ofField_congr hagree]
  rcases hagree with ⟨hnone, hnone'⟩ | ⟨n, n', hn, hn', _⟩
  · rw [hnone, hnone']
  · rw [hn, hn']
    rfl

theorem ofListField_eq_match : Expr.ofListField f field = match f.get? field with
    | some n => Expr.ofList n
    | none => .ok [] := by
  rw [Expr.ofListField]
  split <;> next hget => simp only [hget]

theorem ofListField_congr (hagree : f.AgreeAt f' field .exprs) :
    Expr.ofListField f field = Expr.ofListField f' field := by
  rw [ofListField_eq_match, ofListField_eq_match]
  rcases hagree with ⟨hnone, hnone'⟩ | ⟨n, n', hn, hn', heq⟩
  · rw [hnone, hnone']
  · rw [hn, hn']
    exact heq

/-- An expression is read from the fields that its form uses, and from nothing else. -/
theorem ofFields_congr {form : Form} (hagree : ∀ entry ∈ form.uses, f.AgreeAt f' entry.1 entry.2) :
    Expr.ofFields (some form) f = Expr.ofFields (some form) f' := by
  rw [Expr.ofFields.eq_def, Expr.ofFields.eq_def]
  cases form <;> simp only [Form.uses, List.forall_mem_cons] at hagree <;> dsimp only
  case define =>
    obtain ⟨hname, hty, hvalue, _⟩ := hagree
    rw [Fields.name_congr hname, Fields.ty_congr hty, ofField_congr hvalue]
  case assign =>
    obtain ⟨hname, hvalue, _⟩ := hagree
    rw [Fields.name_congr hname, ofField_congr hvalue]
  case binary =>
    obtain ⟨hop, hleft, hright, _⟩ := hagree
    rw [Fields.name_congr hop, ofField_congr hleft, ofField_congr hright]
  case unary =>
    obtain ⟨hop, harg, _⟩ := hagree
    rw [Fields.name_congr hop, ofField_congr harg]
  case cond =>
    obtain ⟨htest, hyes, hno, _⟩ := hagree
    rw [ofField_congr htest, ofField_congr hyes, ofOptionalField_congr hno]
  case loop =>
    obtain ⟨htest, hbody, _⟩ := hagree
    rw [ofField_congr htest, ofField_congr hbody]
  case func =>
    obtain ⟨hname, hret, hpublic, hexternal, hparams, hbody, _⟩ := hagree
    have hheader : f.header = f'.header := by
      unfold Fields.header
      rw [Fields.name_congr hname, Fields.ty_congr hret, Fields.flag_congr hpublic, Fields.flag_congr hexternal,
        Fields.params_congr hparams]
    rw [hheader, ofField_congr hbody]
  case call =>
    obtain ⟨hname, hargs, _⟩ := hagree
    rw [Fields.name_congr hname, ofListField_congr hargs]
  case index =>
    obtain ⟨htarget, hposition, _⟩ := hagree
    rw [ofField_congr htarget, ofField_congr hposition]
  case setIndex =>
    obtain ⟨htarget, hposition, hvalue, _⟩ := hagree
    rw [ofField_congr htarget, ofField_congr hposition, ofField_congr hvalue]

theorem agree_of_fields {uses : List (String × Role)} (line : Nat) (hrole : role.uses? = some uses)
    (hagree : ∀ entry ∈ uses, f.AgreeAt f' entry.1 entry.2) :
    role.Agree (.mapping line f) (.mapping line f') := by
  cases role <;> cases hrole
  case fields form => exact ofFields_congr hagree
  case param =>
    simp only [List.forall_mem_cons] at hagree
    obtain ⟨hname, hty, _⟩ := hagree
    simp only [Role.Agree, Fields.param]
    rw [Fields.name_congr hname, Fields.ty_congr hty]

end Congruence

section Items

variable {before behind : List Node} {n n' : Node}

theorem ofNodes_congr (heq : Expr.ofNode n = Expr.ofNode n') :
    Expr.ofNodes (before ++ n :: behind) = Expr.ofNodes (before ++ n' :: behind) := by
  induction before with
  | nil => rw [List.nil_append, List.nil_append, Expr.ofNodes, Expr.ofNodes, heq]
  | cons m before ih => rw [List.cons_append, List.cons_append, Expr.ofNodes, Expr.ofNodes, ih]

theorem agree_of_item {role inner : Role} (line : Nat) (hrole : role.item? = some inner)
    (hagree : inner.Agree n n') :
    role.Agree (.sequence line (before ++ n :: behind)) (.sequence line (before ++ n' :: behind)) := by
  cases role <;> cases hrole
  case expr =>
    refine ⟨?_, ?_⟩
    · rw [Expr.ofNode, Expr.ofNode, ofNodes_congr hagree.1]
    · rw [Expr.ofOptional.eq_def, Expr.ofOptional.eq_def]
      dsimp only
      rw [Expr.ofNode, Expr.ofNode, ofNodes_congr hagree.1]
  case exprs =>
    simp only [Role.Agree]
    rw [Expr.ofList, Expr.ofList, ofNodes_congr hagree.1]
  case params =>
    have hparam : Fields.param n = Fields.param n' := hagree
    simp only [Role.Agree, paramsOf, List.mapM_append, List.mapM_cons, hparam]

end Items

section Content

variable {line : Nat} {key n n' : Node}

theorem ofForm_congr {form : Form} (hagree : form.content.Agree n n') :
    Expr.ofForm (some form) n = Expr.ofForm (some form) n' := by
  rw [Expr.ofForm.eq_def, Expr.ofForm.eq_def]
  cases form <;> dsimp only
  case block => rw [show Expr.ofList n = Expr.ofList n' from hagree]
  case out => rw [hagree.1]
  case exit => rw [hagree.2]
  case ret => rw [hagree.2]
  case var => rw [nameOf_congr hagree]
  case input => rw [nameOf_congr hagree]
  case label => rw [nameOf_congr hagree]
  case goto => rw [nameOf_congr hagree]
  all_goals exact hagree

/-- A mapping is read the same where nothing may stand as well. -/
theorem agree_of_mapping {f f' : Fields} (heq : Expr.ofNode (.mapping line f) = Expr.ofNode (.mapping line f')) :
    Role.expr.Agree (.mapping line f) (.mapping line f') := by
  refine ⟨heq, ?_⟩
  rw [Expr.ofOptional.eq_def, Expr.ofOptional.eq_def]
  exact heq

theorem agree_of_form (hagree : (Role.ofKey key.value).Agree n n') :
    Role.expr.Agree (.mapping line [(key, n)]) (.mapping line [(key, n')]) := by
  apply agree_of_mapping
  have hcontent : Expr.ofForm (Form.ofKey? key.value) n = Expr.ofForm (Form.ofKey? key.value) n' := by
    unfold Role.ofKey at hagree
    cases hform : Form.ofKey? key.value with
    | some form =>
      rw [hform] at hagree
      exact ofForm_congr hagree
    | none =>
      rw [hform] at hagree
      exact hagree
  rw [Expr.ofNode, Expr.ofNode, hcontent]

theorem agree_of_key {key' : Node} (hvalue : key.value = key'.value) :
    Role.expr.Agree (.mapping line [(key, n)]) (.mapping line [(key', n)]) := by
  apply agree_of_mapping
  rw [Expr.ofNode, Expr.ofNode, hvalue]

/-- A mapping that does not have one key is no expression, whatever its keys are. -/
theorem ofNode_of_not_looksInto {f : Fields} (hf : Role.expr.looksInto (.mapping line f) = false) :
    Expr.ofNode (.mapping line f) = .error (.bare (.keyCount line)) := by
  match f, hf with
  | [], _ => rw [Expr.ofNode]; simp
  | _ :: _ :: _, _ => rw [Expr.ofNode]; simp

theorem agree_of_sameOutside {role : Role} (hsame : SameOutside n n') (hn : role.looksInto n = false)
    (hn' : role.looksInto n' = false) : role.Agree n n' := by
  cases role
  case text => exact .inr hsame
  case expr =>
    cases hsame with
    | sequence => cases hn
    | mapping =>
      apply agree_of_mapping
      rw [ofNode_of_not_looksInto hn, ofNode_of_not_looksInto hn']
  case exprs =>
    cases hsame with
    | sequence => cases hn
    | mapping =>
      simp only [Role.Agree]
      rw [Expr.ofList.eq_def, Expr.ofList.eq_def]
      rfl
  case fields form =>
    cases hsame with
    | sequence => rfl
    | mapping => cases hn
  case params =>
    cases hsame with
    | sequence => cases hn
    | mapping => rfl
  case param =>
    cases hsame with
    | sequence => rfl
    | mapping => cases hn
  case unknown =>
    simp only [Role.Agree]
    rw [Expr.ofForm.eq_def, Expr.ofForm.eq_def]
    cases hsame with
    | sequence => rfl
    | mapping =>
      dsimp only
      rw [Expr.ofFields.eq_def, Expr.ofFields.eq_def]

end Content

/-- A change that keeps to the rules is not noticed, wherever it is made. -/
theorem Rearranged.agree {role : Role} {n n' : Node} (hchange : Rearranged role n n') : role.Agree n n' := by
  induction hchange with
  | reorder hrole hkeys hperm =>
    exact agree_of_fields _ hrole fun entry _ => .of_eq (Fields.get?_perm hkeys hperm)
  | @add role uses line f g key value hrole hunused =>
    refine agree_of_fields _ hrole fun entry hentry => .of_eq ?_
    have hne : key.value ≠ entry.1 := fun heq => hunused (List.mem_map.mpr ⟨entry, hentry, heq.symm⟩)
    rw [Fields.get?_append, Fields.get?_append, Fields.get?, if_neg hne, Option.or_none]
  | inside hsame hn hn' => exact agree_of_sameOutside hsame hn hn'
  | key hvalue => exact agree_of_key hvalue
  | @inField role uses line f g key inner n n' hrole hused _ ih =>
    refine agree_of_fields _ hrole fun entry hentry => ?_
    by_cases hkey : key.value = entry.1
    · have hinner : (key.value, inner) = entry := Role.uses?_unique hrole hused hentry hkey
      subst hinner
      -- A later field of the same key hides the one that is changed.
      cases hlater : Fields.get? g key.value with
      | some m => exact .of_eq (by simp only [Fields.get?_append, Fields.get?, hlater, Option.some_or])
      | none =>
        refine .inr ⟨n, n', ?_, ?_, ih⟩ <;>
          simp only [Fields.get?_append, Fields.get?, hlater, if_true, Option.none_or, Option.some_or]
    · exact .of_eq (by simp only [Fields.get?_append, Fields.get?, if_neg hkey])
  | inItem hrole _ ih => exact agree_of_item _ hrole ih
  | inForm _ ih => exact agree_of_form ih

theorem Rearranged.program {t t' : Node} (hchange : Rearranged .exprs t t') :
    Program.ofNode t = Program.ofNode t' := by
  have hagree := hchange.agree
  cases hchange with
  | reorder hrole => cases hrole
  | add hrole => cases hrole
  | inField hrole => cases hrole
  | inside hsame hn =>
    cases hsame with
    | sequence => cases hn
    | mapping => rfl
  | inItem hrole hinner =>
    simp only [Role.Agree] at hagree
    rw [Expr.ofList, Expr.ofList] at hagree
    rw [Program.ofNode, Program.ofNode, hagree]

/-- Decoding gives the same tree or fails with the same error, however often fields of different keys
    are put in another order and fields that are not used are added, or taken away again. -/
theorem ofNode_of_rearranged {t t' : Node} (hchanges : Relation.EqvGen (Rearranged .exprs) t t') :
    Program.ofNode t = Program.ofNode t' := by
  induction hchanges with
  | rel _ _ hchange => exact hchange.program
  | refl _ => rfl
  | symm _ _ _ ih => exact ih.symm
  | trans _ _ _ _ _ ihfirst ihsecond => exact ihfirst.trans ihsecond

/-- A function whose fields are turned round, with a field added that parameters do not use and the
    fields of the assignment in its body turned round too, is the function it was. -/
theorem ofNode_turned :
    let text (value : String) : Node := .scalar 1 "!!str" value
    let name := (text "name", text "a")
    let value := (text "value", Node.scalar 1 "!!int" "7")
    let note := (text "note", text "unused")
    let params (fields : Fields) := (text "params", Node.sequence 1 [.mapping 1 fields])
    let body (fields : Fields) := (text "body", Node.mapping 1 [(text "set", .mapping 1 fields)])
    let root (fields : Fields) : Node := .sequence 1 [.mapping 1 [(text "fun", .mapping 1 fields)]]
    let t := root [name, params [name], body [name, value]]
    let t' := root [body [value, name], name, params [note, name]]
    Relation.EqvGen (Rearranged .exprs) t t' ∧ Program.ofNode t = Program.ofNode t' := by
  intro text name value note params body root t t'
  have hfun : Role.ofKey "fun" = .fields .func := by decide
  have hset : Role.ofKey "set" = .fields .assign := by decide
  have hroot : ∀ f f' : Fields, Rearranged (.fields .func) (.mapping 1 f) (.mapping 1 f') →
      Rearranged .exprs (root f) (root f') := fun f f' hchange =>
    @Rearranged.inItem .exprs .expr 1 [] [] _ _ rfl (.inForm (hfun ▸ hchange))
  have hturned : Rearranged .exprs t (root [body [name, value], name, params [name]]) :=
    hroot _ _ (.reorder rfl (by decide) (@List.perm_append_comm _ [_, _] [_]))
  have hadded : Rearranged .exprs (root [body [name, value], name, params [name]])
      (root [body [name, value], name, params [note, name]]) :=
    hroot _ _ (@Rearranged.inField _ _ 1 [_, _] [] _ .params _ _ rfl (by decide)
      (@Rearranged.inItem _ .param 1 [] [] _ _ rfl (@Rearranged.add _ _ 1 [] [_] _ _ rfl (by decide))))
  have hmoved : Rearranged .exprs (root [body [name, value], name, params [note, name]]) t' :=
    hroot _ _ (@Rearranged.inField _ _ 1 [] [_, _] _ .expr _ _ rfl (by decide)
      (.inForm (hset ▸ .reorder rfl (by decide) (List.Perm.swap _ _ _))))
  have hchanges := ((Relation.EqvGen.rel _ _ hturned).trans _ _ _ (.rel _ _ hadded)).trans _ _ _ (.rel _ _ hmoved)
  exact ⟨hchanges, ofNode_of_rearranged hchanges⟩

end TreeCompiler.Tree
