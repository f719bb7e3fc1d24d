import TreeCompiler.Proofs.Text.Numeral
import TreeCompiler.Tree.Decode

/-!
How trees are written as documents. `Expr.toNode` renders a tree and `Expr.WellFormed` says which
trees a document can spell. Decoding undoes the rendition.
-/

namespace TreeCompiler.Tree

open Yaml (Node)

/-- A literal is well-formed if it is of a known kind and, as a string, a text. -/
def Literal.WellFormed : Literal → Prop
  | .str s => s.toString?.isSome = true
  | .unknown _ => False
  | _ => True

/-- A parameter has a name and a known type. -/
def Param.WellFormed (p : Param) : Prop :=
  p.name ≠ "" ∧ p.ty ∈ Ty.all

/-- A function has a name, well-formed parameters and a known type. -/
def Header.WellFormed (h : Header) : Prop :=
  h.name ≠ "" ∧ (∀ p ∈ h.params, p.WellFormed) ∧ h.ret ∈ Ty.all

/-- A void literal, which a document cannot tell from nothing where nothing may stand. -/
def Expr.isVoid : Expr → Bool
  | .literal .void => true
  | _ => false

mutual

/-- Names and operators are not empty, types are known, and nothing is missing that is required.
    String literals are limited to UTF-8 texts, because nodes hold such texts only. -/
def Expr.WellFormed : Expr → Prop
  | .missing => False
  | .literal l => l.WellFormed
  | .block body => WellFormedAll body
  | .array elems => WellFormedAll elems
  | .var name => name ≠ ""
  | .define name ty value => name ≠ "" ∧ ty ∈ Ty.all ∧ value.WellFormed
  | .assign name value => name ≠ "" ∧ value.WellFormed
  | .binary op left right => op ≠ "" ∧ left.WellFormed ∧ right.WellFormed
  | .unary op arg => op ≠ "" ∧ arg.WellFormed
  | .cond test yes no => test.WellFormed ∧ yes.WellFormed ∧ (no.isMissing = true ∨ no.WellFormed)
  | .loop test body => test.WellFormed ∧ body.WellFormed
  | .func header body =>
    header.WellFormed ∧ if header.isExternal then body.isMissing = true else body.WellFormed
  | .call name args => name ≠ "" ∧ WellFormedAll args
  | .ret value => value.isMissing = true ∨ value.isVoid = false ∧ value.WellFormed
  | .index target position => target.WellFormed ∧ position.WellFormed
  | .setIndex target position value => target.WellFormed ∧ position.WellFormed ∧ value.WellFormed
  | .out value => value.WellFormed
  | .input name => name ≠ ""
  | .label name => name ≠ ""
  | .goto name => name ≠ ""
  | .exit code => code.isMissing = true ∨ code.isVoid = false ∧ code.WellFormed

/-- All of the expressions are well-formed. -/
def WellFormedAll : List Expr → Prop
  | [] => True
  | e :: rest => e.WellFormed ∧ WellFormedAll rest

end

section Render

-- The line that all nodes are said to start on.
variable (line : Nat)

/-- A text as a scalar. -/
def textNode (s : String) : Node :=
  .scalar line "!!str" s

/-- A literal as a scalar: a decimal number, a truth value, a text or null. -/
def Literal.toNode : Literal → Node
  | .number v => .scalar line "!!int" (toString v.toInt)
  | .bool b => .scalar line "!!bool" (if b then "true" else "false")
  | .str s => textNode line (s.toString?.getD "")
  | .void => .scalar line "!!null" "null"
  | .unknown _ => .scalar line "!!null" "null"

/-- The fields of a mapping, whose keys are texts. -/
def fieldsOf (entries : List (String × Node)) : Fields :=
  entries.map fun (key, value) => (textNode line key, value)

/-- A mapping from the key of a form to its content. -/
def Form.toNode (form : Form) (content : Node) : Node :=
  .mapping line (fieldsOf line [(form.key, content)])

/-- A mapping from the key of a form to its fields. -/
def Form.withFields (form : Form) (entries : List (String × Node)) : Node :=
  form.toNode line (.mapping line (fieldsOf line entries))

/-- A parameter as a mapping. -/
def Param.toNode (p : Param) : Node :=
  .mapping line (fieldsOf line [("name", textNode line p.name), ("type", textNode line p.ty.name)])

/-- A truth value as a scalar. -/
def flagNode (b : Bool) : Node :=
  Literal.toNode line (.bool b)

/-- The fields of a function but its body. -/
def Header.entries (h : Header) : List (String × Node) :=
  [("name", textNode line h.name), ("params", .sequence line (h.params.map (·.toNode line))),
    ("ret", textNode line h.ret.name), ("pub", flagNode line h.isPublic), ("extern", flagNode line h.isExternal)]

mutual

/-- An expression as a node. -/
def Expr.toNode : Expr → Node
  | .missing => Literal.toNode line .void
  | .literal l => l.toNode line
  | .block body => Form.block.toNode line (.sequence line (toNodes body))
  | .array elems => .sequence line (toNodes elems)
  | .var name => Form.var.toNode line (textNode line name)
  | .define name ty value => Form.define.withFields line
      [("name", textNode line name), ("type", textNode line ty.name), ("value", value.toNode)]
  | .assign name value => Form.assign.withFields line [("name", textNode line name), ("value", value.toNode)]
  | .binary op left right => Form.binary.withFields line
      [("op", textNode line op), ("left", left.toNode), ("right", right.toNode)]
  | .unary op arg => Form.unary.withFields line [("op", textNode line op), ("arg", arg.toNode)]
  | .cond test yes no => Form.cond.withFields line
      ([("cond", test.toNode), ("then", yes.toNode)] ++ if no.isMissing then [] else [("else", no.toNode)])
  | .loop test body => Form.loop.withFields line [("cond", test.toNode), ("body", body.toNode)]
  | .func header body => Form.func.withFields line
      (header.entries line ++ if header.isExternal then [] else [("body", body.toNode)])
  | .call name args => Form.call.withFields line
      [("name", textNode line name), ("args", .sequence line (toNodes args))]
  | .ret value => Form.ret.toNode line value.toNode
  | .index target position => Form.index.withFields line [("target", target.toNode), ("index", position.toNode)]
  | .setIndex target position value => Form.setIndex.withFields line
      [("target", target.toNode), ("index", position.toNode), ("value", value.toNode)]
  | .out value => Form.out.toNode line value.toNode
  | .input name => Form.input.toNode line (textNode line name)
  | .label name => Form.label.toNode line (textNode line name)
  | .goto name => Form.goto.toNode line (textNode line name)
  | .exit code => Form.exit.toNode line code.toNode

/-- Expressions as the items of a sequence. -/
def toNodes : List Expr → List Node
  | [] => []
  | e :: rest => e.toNode :: toNodes rest

end

end Render

theorem Form.ofKey?_key (form : Form) : ofKey? form.key = some form := by
  cases form <;> decide

theorem Ty.ofName?_name {ty : Ty} (hty : ty ∈ all) : ofName? ty.name = some ty := by
  revert ty
  decide

/-- The bytes of a text spell the text. -/
theorem toString?_ofString (s : String) : (Bytes.ofString s).toString? = some s := by
  have hvalid : ByteArray.IsValidUTF8 ⟨(Bytes.ofString s).toArray⟩ := s.isValidUTF8
  exact dif_pos hvalid

theorem ofString_of_toString? {b : Bytes} {s : String} (hb : b.toString? = some s) : Bytes.ofString s = b := by
  unfold Bytes.toString? String.fromUTF8? at hb
  split at hb
  · cases hb
    rfl
  · cases hb

section RoundTrip

variable {line : Nat} {form : Form} {content n : Node} {entries : List (String × Node)} {f : Fields}
  {field name : String} {x : Expr}

@[simp] theorem get?_fieldsOf_nil : Fields.get? (fieldsOf line []) name = none := rfl

@[simp] theorem get?_fieldsOf_cons {key : String} : Fields.get? (fieldsOf line ((key, n) :: entries)) name =
    (Fields.get? (fieldsOf line entries) name).or (if key = name then some n else none) := rfl

@[simp] theorem fieldsOf_append {entries' : List (String × Node)} :
    fieldsOf line (entries ++ entries') = fieldsOf line entries ++ fieldsOf line entries' :=
  List.map_append

theorem ofField_eq (hget : f.get? field = some n) (hn : Expr.ofNode n = .ok x) : Expr.ofField f field = .ok x := by
  rw [Expr.ofField]
  split
  · next n' hget' =>
    cases hget.symm.trans hget'
    rw [hn]
    rfl
  · next hnone => cases hget.symm.trans hnone

theorem ofListField_eq {xs : List Expr} (hget : f.get? field = some n) (hn : Expr.ofList n = .ok xs) :
    Expr.ofListField f field = .ok xs := by
  rw [Expr.ofListField]
  split
  · next n' hget' =>
    cases hget.symm.trans hget'
    exact hn
  · next hnone => cases hget.symm.trans hnone

theorem ofOptionalField_eq (hget : f.get? field = some n) (hn : Expr.ofNode n = .ok x) :
    Expr.ofOptionalField f field = .ok x := by
  rw [Expr.ofOptionalField, hget, Option.isSome_some, if_pos rfl, ofField_eq hget hn]

theorem ofOptionalField_none (hget : f.get? field = none) : Expr.ofOptionalField f field = .ok .missing := by
  rw [Expr.ofOptionalField, hget, Option.isSome_none]
  rfl

theorem ofNode_form (hcontent : Expr.ofForm (some form) content = .ok x) :
    Expr.ofNode (form.toNode line content) = .ok x := by
  rw [Form.toNode, fieldsOf, List.map_singleton, Expr.ofNode]
  simp only [textNode, Node.value, Form.ofKey?_key, hcontent]
  rfl

/-- The forms whose content has fields. -/
def Form.hasFields : Form → Bool
  | .block | .var | .input | .label | .goto | .out | .exit | .ret => false
  | _ => true

theorem ofNode_withFields (hform : form.hasFields = true)
    (hfields : Expr.ofFields (some form) (fieldsOf line entries) = .ok x) :
    Expr.ofNode (form.withFields line entries) = .ok x := by
  refine ofNode_form ?_
  rw [Expr.ofForm.eq_def]
  cases form with
  | block => cases hform
  | var => cases hform
  | input => cases hform
  | label => cases hform
  | goto => cases hform
  | out => cases hform
  | exit => cases hform
  | ret => cases hform
  | _ => exact hfields

theorem nameOf_textNode (hname : name ≠ "") : nameOf (textNode line name) = .ok name := by
  simp [nameOf, textNode, hname]

theorem Literal.ofNode_toNode {l : Literal} (hl : l.WellFormed) : Expr.ofNode (l.toNode line) = .ok (.literal l) := by
  have hscalar : ∀ tag value, Literal.ofScalar line tag value = .ok l →
      Expr.ofNode (.scalar line tag value) = .ok (.literal l) := by
    intro tag value hread
    rw [Expr.ofNode, hread]
    rfl
  cases l with
  | number v =>
    refine hscalar _ _ ?_
    have hread := Text.Numeral.signed_toString v.le_toInt v.toInt_lt
    simp only [Literal.ofScalar, hread, if_true, Int64.ofInt_toInt]
  | bool b => cases b <;> exact hscalar _ _ (by simp [Literal.ofScalar, Text.Numeral.truth?])
  | str s =>
    obtain ⟨text, htext⟩ := Option.isSome_iff_exists.mp hl
    rw [Literal.toNode, htext, Option.getD_some]
    refine hscalar _ _ ?_
    simp [Literal.ofScalar, ofString_of_toString? htext]
  | void => exact hscalar _ _ (by simp [Literal.ofScalar])
  | unknown kind => cases hl

theorem Fields.name_eq (line : Nat) (hget : f.get? field = some (textNode line name)) (hname : name ≠ "") :
    f.name field = .ok name := by
  simp [Fields.name, hget, textNode, hname]

theorem Fields.ty_eq (line : Nat) {ty : Ty} (hget : f.get? field = some (textNode line ty.name)) (hty : ty ∈ Ty.all) :
    f.ty field = .ok ty := by
  simp [Fields.ty, hget, textNode, Node.value, Ty.ofName?_name hty]

theorem Fields.flag_eq (line : Nat) {b : Bool} (hget : f.get? field = some (flagNode line b)) :
    f.flag field = .ok b := by
  have hread : Text.Numeral.truth? (flagNode line b).value = some b := by
    cases b <;> simp [flagNode, Literal.toNode, Node.value, Text.Numeral.truth?]
  simp [Fields.flag, hget, hread]

theorem Param.ofNode_toNode {p : Param} (hp : p.WellFormed) : Fields.param (p.toNode line) = .ok p := by
  obtain ⟨hname, hty⟩ := hp
  rw [Param.toNode, Fields.param]
  rw [Fields.name_eq line (by simp) hname, Fields.ty_eq line (by simp) hty]
  rfl

theorem mapM_param {ps : List Param} (hps : ∀ p ∈ ps, p.WellFormed) :
    (ps.map (·.toNode line)).mapM Fields.param = .ok ps := by
  induction ps with
  | nil => rfl
  | cons p ps ih =>
    have hp : Fields.param (p.toNode line) = .ok p := Param.ofNode_toNode (hps p List.mem_cons_self)
    have hrest := ih fun q hq => hps q (List.mem_cons_of_mem _ hq)
    rw [List.map_cons, List.mapM_cons, hp, hrest]
    rfl

theorem Fields.get?_append {g : Fields} : Fields.get? (f ++ g) name = (g.get? name).or (f.get? name) := by
  induction f with
  | nil => simp [get?]
  | cons entry f ih => simp [get?, ih, Option.or_assoc]

/-- All of a function but its body is read, whatever stands behind it and has other keys. -/
theorem Header.ofFields_entries {h : Header} (hh : h.WellFormed) {rest : List (String × Node)}
    (hrest : ∀ key, key ≠ "body" → Fields.get? (fieldsOf line rest) key = none) :
    Fields.header (fieldsOf line (h.entries line ++ rest)) = .ok h := by
  obtain ⟨hname, hparams, hret⟩ := hh
  have hget : ∀ key, key ≠ "body" → Fields.get? (fieldsOf line (h.entries line ++ rest)) key =
      Fields.get? (fieldsOf line (h.entries line)) key := by
    intro key hkey
    rw [fieldsOf_append, Fields.get?_append, hrest key hkey, Option.none_or]
  have hps : Fields.params (fieldsOf line (h.entries line ++ rest)) = .ok h.params := by
    rw [Fields.params, hget "params" (by decide)]
    simp [Header.entries, mapM_param hparams]
  rw [Fields.header, Fields.name_eq line (by rw [hget _ (by decide)]; simp [Header.entries]) hname,
    Fields.ty_eq line (by rw [hget _ (by decide)]; simp [Header.entries]) hret,
    Fields.flag_eq line (b := h.isPublic) (by rw [hget _ (by decide)]; simp [Header.entries]),
    Fields.flag_eq line (b := h.isExternal) (by rw [hget _ (by decide)]; simp [Header.entries]), hps]
  rfl

/-- What is neither missing nor void is written as something other than null. -/
theorem ofOptional_toNode (hvoid : x.isVoid = false)
    (hnode : Expr.ofNode (x.toNode line) = .ok x) : Expr.ofOptional (x.toNode line) = .ok x := by
  rw [Expr.ofOptional.eq_def]
  split
  · next line' tag value heq =>
    rw [if_neg, ← heq]
    · exact hnode
    · rintro rfl
      rw [heq, Expr.ofNode] at hnode
      cases hnode
      cases hvoid
  · exact hnode

theorem ofOptional_missing : Expr.ofOptional (Expr.missing.toNode line) = .ok .missing := by
  rw [Expr.toNode, Literal.toNode, Expr.ofOptional, if_pos rfl]

theorem Expr.eq_missing (hx : x.isMissing = true) : x = .missing := by
  cases x <;> first | rfl | cases hx

theorem Expr.WellFormed.isMissing (hx : x.WellFormed) : x.isMissing = false := by
  cases x with
  | missing => rw [Expr.WellFormed] at hx; cases hx
  | _ => rfl

end RoundTrip

mutual

/-- Decoding undoes the rendition. -/
theorem Expr.ofNode_toNode (line : Nat) : (x : Expr) → x.WellFormed → Expr.ofNode (x.toNode line) = .ok x
  | .missing, hx => by
    rw [WellFormed] at hx
    cases hx
  | .literal l, hx => by
    rw [toNode]
    exact Literal.ofNode_toNode hx
  | .block body, hx => by
    rw [toNode]
    refine ofNode_form ?_
    rw [ofForm, ofList, ofNodes_toNodes line body hx]
    rfl
  | .array elems, hx => by
    rw [toNode, ofNode, ofNodes_toNodes line elems hx]
    rfl
  | .var name, hx => by
    rw [toNode]
    refine ofNode_form ?_
    rw [ofForm, nameOf_textNode hx]
    rfl
  | .define name ty value, hx => by
    obtain ⟨hname, hty, hvalue⟩ := hx
    rw [toNode]
    refine ofNode_withFields rfl ?_
    rw [ofFields, Fields.name_eq line (by simp) hname, Fields.ty_eq line (by simp) hty,
      ofField_eq (by simp) (ofNode_toNode line value hvalue)]
    rfl
  | .assign name value, hx => by
    obtain ⟨hname, hvalue⟩ := hx
    rw [toNode]
    refine ofNode_withFields rfl ?_
    rw [ofFields, Fields.name_eq line (by simp) hname, ofField_eq (by simp) (ofNode_toNode line value hvalue)]
    rfl
  | .binary op left right, hx => by
    obtain ⟨hop, hleft, hright⟩ := hx
    rw [toNode]
    refine ofNode_withFields rfl ?_
    rw [ofFields, Fields.name_eq line (by simp) hop, ofField_eq (by simp) (ofNode_toNode line left hleft),
      ofField_eq (by simp) (ofNode_toNode line right hright)]
    rfl
  | .unary op arg, hx => by
    obtain ⟨hop, harg⟩ := hx
    rw [toNode]
    refine ofNode_withFields rfl ?_
    rw [ofFields, Fields.name_eq line (by simp) hop, ofField_eq (by simp) (ofNode_toNode line arg harg)]
    rfl
  | .cond test yes no, hx => by
    obtain ⟨htest, hyes, hno⟩ := hx
    rw [toNode]
    refine ofNode_withFields rfl ?_
    rcases hno with hno | hno
    · obtain rfl := eq_missing hno
      rw [if_pos hno, ofFields, ofField_eq (by simp) (ofNode_toNode line test htest),
        ofField_eq (by simp) (ofNode_toNode line yes hyes), ofOptionalField_none (by simp)]
      rfl
    · rw [if_neg (by simp [hno.isMissing]), ofFields, ofField_eq (by simp) (ofNode_toNode line test htest),
        ofField_eq (by simp) (ofNode_toNode line yes hyes),
        ofOptionalField_eq (by simp) (ofNode_toNode line no hno)]
      rfl
  | .loop test body, hx => by
    obtain ⟨htest, hbody⟩ := hx
    rw [toNode]
    refine ofNode_withFields rfl ?_
    rw [ofFields, ofField_eq (by simp) (ofNode_toNode line test htest),
      ofField_eq (by simp) (ofNode_toNode line body hbody)]
    rfl
  | .func header body, hx => by
    obtain ⟨hheader, hbody⟩ := hx
    rw [toNode]
    refine ofNode_withFields rfl ?_
    cases hexternal : header.isExternal with
    | true =>
      rw [hexternal, if_pos rfl] at hbody
      obtain rfl := eq_missing hbody
      rw [if_pos rfl, ofFields, Header.ofFields_entries hheader (by simp)]
      simp only [bind, Except.bind, hexternal]
      rfl
    | false =>
      rw [hexternal, if_neg (by simp)] at hbody
      rw [if_neg (by simp), ofFields, Header.ofFields_entries hheader (by simp [eq_comm])]
      simp only [bind, Except.bind, hexternal]
      rw [if_neg (by simp), ofField_eq (by simp [Fields.get?_append]) (ofNode_toNode line body hbody)]
      rfl
  | .call name args, hx => by
    obtain ⟨hname, hargs⟩ := hx
    have hlist : Expr.ofList (.sequence line (toNodes line args)) = .ok args := by
      rw [ofList, ofNodes_toNodes line args hargs]
    rw [toNode]
    refine ofNode_withFields rfl ?_
    rw [ofFields, Fields.name_eq line (by simp) hname, ofListField_eq (by simp) hlist]
    rfl
  | .ret value, hx => by
    rw [toNode]
    refine ofNode_form ?_
    rcases hx with hmissing | ⟨hvoid, hvalue⟩
    · obtain rfl := eq_missing hmissing
      rw [ofForm, ofOptional_missing]
      rfl
    · rw [ofForm, ofOptional_toNode hvoid (ofNode_toNode line value hvalue)]
      rfl
  | .index target position, hx => by
    obtain ⟨htarget, hposition⟩ := hx
    rw [toNode]
    refine ofNode_withFields rfl ?_
    rw [ofFields, ofField_eq (by simp) (ofNode_toNode line target htarget),
      ofField_eq (by simp) (ofNode_toNode line position hposition)]
    rfl
  | .setIndex target position value, hx => by
    obtain ⟨htarget, hposition, hvalue⟩ := hx
    rw [toNode]
    refine ofNode_withFields rfl ?_
    rw [ofFields, ofField_eq (by simp) (ofNode_toNode line target htarget),
      ofField_eq (by simp) (ofNode_toNode line position hposition),
      ofField_eq (by simp) (ofNode_toNode line value hvalue)]
    rfl
  | .out value, hx => by
    rw [toNode]
    refine ofNode_form ?_
    rw [ofForm, ofNode_toNode line value hx]
    rfl
  | .input name, hx => by
    rw [toNode]
    refine ofNode_form ?_
    rw [ofForm, nameOf_textNode hx]
    rfl
  | .label name, hx => by
    rw [toNode]
    refine ofNode_form ?_
    rw [ofForm, nameOf_textNode hx]
    rfl
  | .goto name, hx => by
    rw [toNode]
    refine ofNode_form ?_
    rw [ofForm, nameOf_textNode hx]
    rfl
  | .exit code, hx => by
    rw [toNode]
    refine ofNode_form ?_
    rcases hx with hmissing | ⟨hvoid, hcode⟩
    · obtain rfl := eq_missing hmissing
      rw [ofForm, ofOptional_missing]
      rfl
    · rw [ofForm, ofOptional_toNode hvoid (ofNode_toNode line code hcode)]
      rfl

/-- Decoding undoes the rendition of each of some expressions. -/
theorem Expr.ofNodes_toNodes (line : Nat) : (xs : List Expr) → WellFormedAll xs →
    Expr.ofNodes (toNodes line xs) = .ok xs
  | [], _ => by
    rw [toNodes, ofNodes]
  | x :: xs, hxs => by
    obtain ⟨hx, hrest⟩ := hxs
    rw [toNodes, ofNodes, ofNode_toNode line x hx, ofNodes_toNodes line xs hrest]
    rfl

end

mutual

/-- Whether two nodes are the same. -/
def sameNode : Node → Node → Bool
  | .scalar line tag value, .scalar line' tag' value' => line = line' ∧ tag = tag' ∧ value = value'
  | .sequence line items, .sequence line' items' => line = line' ∧ sameNodes items items'
  | .mapping line entries, .mapping line' entries' => line = line' ∧ sameEntries entries entries'
  | .alias line name, .alias line' name' => line = line' ∧ name = name'
  | _, _ => false

/-- Whether the nodes of two lists are the same. -/
def sameNodes : List Node → List Node → Bool
  | [], [] => true
  | n :: rest, n' :: rest' => sameNode n n' ∧ sameNodes rest rest'
  | _, _ => false

/-- Whether the entries of two mappings are the same. -/
def sameEntries : List (Node × Node) → List (Node × Node) → Bool
  | [], [] => true
  | (key, value) :: rest, (key', value') :: rest' =>
    sameNode key key' ∧ sameNode value value' ∧ sameEntries rest rest'
  | _, _ => false

end

mutual

theorem eq_of_sameNode : (n n' : Node) → sameNode n n' = true → n = n'
  | .scalar .., .scalar .., hsame => by
    simp only [sameNode, decide_eq_true_eq] at hsame
    obtain ⟨rfl, rfl, rfl⟩ := hsame
    rfl
  | .sequence _ items, .sequence _ items', hsame => by
    simp only [sameNode, decide_eq_true_eq] at hsame
    obtain ⟨rfl, hitems⟩ := hsame
    rw [eq_of_sameNodes items items' hitems]
  | .mapping _ entries, .mapping _ entries', hsame => by
    simp only [sameNode, decide_eq_true_eq] at hsame
    obtain ⟨rfl, hentries⟩ := hsame
    rw [eq_of_sameEntries entries entries' hentries]
  | .alias .., .alias .., hsame => by
    simp only [sameNode, decide_eq_true_eq] at hsame
    obtain ⟨rfl, rfl⟩ := hsame
    rfl

theorem eq_of_sameNodes : (ns ns' : List Node) → sameNodes ns ns' = true → ns = ns'
  | [], [], _ => rfl
  | n :: rest, n' :: rest', hsame => by
    simp only [sameNodes, decide_eq_true_eq] at hsame
    rw [eq_of_sameNode n n' hsame.1, eq_of_sameNodes rest rest' hsame.2]

theorem eq_of_sameEntries : (es es' : List (Node × Node)) → sameEntries es es' = true → es = es'
  | [], [], _ => rfl
  | (key, value) :: rest, (key', value') :: rest', hsame => by
    simp only [sameEntries, decide_eq_true_eq] at hsame
    rw [eq_of_sameNode key key' hsame.1, eq_of_sameNode value value' hsame.2.1,
      eq_of_sameEntries rest rest' hsame.2.2]

end

/-- A text that holds the rendition of well-formed expressions is read as their program. -/
theorem Program.ofText_eq (line : Nat) {text : String} {xs : List Expr} (hxs : WellFormedAll xs)
    (htext : (Yaml.firstDocument text).toOption.join.any (sameNode (.sequence line (toNodes line xs))) = true) :
    Program.ofText text = .ok ⟨xs⟩ := by
  cases hdoc : Yaml.firstDocument text with
  | error e =>
    rw [hdoc] at htext
    cases htext
  | ok root =>
    cases root with
    | none =>
      rw [hdoc] at htext
      cases htext
    | some root =>
      simp only [hdoc, Except.toOption, Option.join_some, Option.any_some] at htext
      unfold ofText
      rw [hdoc]
      dsimp only
      rw [← eq_of_sameNode _ _ htext]
      unfold ofNode
      dsimp only
      rw [Expr.ofNodes_toNodes line xs hxs]
      rfl

end TreeCompiler.Tree
