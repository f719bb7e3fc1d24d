import TreeCompiler.Proofs.Tree.Opening

/-!
Clear expressions are recognized by their tokens wherever they can stand: if the same tokens begin with
either of two expressions, these are the same, and so is what stands behind them.
-/

namespace TreeCompiler.Tree

section Lists

variable {α : Type} {spelling : α → List Token} {as bs : List α} {us vs : List Token}

/-- Items that follow each other are recognized up to what is none, if each of them is recognized
    before the next one and before what stands behind them all. -/
theorem eq_of_flatMap {P : List Token → Prop} (hP : ∀ a ts, P (spelling a ++ ts))
    (hitem : ∀ a ∈ as, ∀ b ∈ bs, ∀ ts ts', P ts → P ts' → spelling a ++ ts = spelling b ++ ts' →
      a = b ∧ ts = ts')
    (hus : P us ∧ ∀ a ts, us ≠ spelling a ++ ts) (hvs : P vs ∧ ∀ a ts, vs ≠ spelling a ++ ts)
    (heq : as.flatMap spelling ++ us = bs.flatMap spelling ++ vs) : as = bs ∧ us = vs := by
  have hbehind : ∀ {cs : List α} {ts}, P ts → P (cs.flatMap spelling ++ ts) := by
    intro cs ts hts
    cases cs with
    | nil => exact hts
    | cons c cs =>
      rw [List.flatMap_cons, List.append_assoc]
      exact hP c _
  induction as generalizing bs with
  | nil =>
    cases bs with
    | nil => exact ⟨rfl, heq⟩
    | cons b bs =>
      rw [List.flatMap_cons, List.append_assoc] at heq
      exact absurd heq (hus.2 b _)
  | cons a as ih =>
    cases bs with
    | nil =>
      rw [List.flatMap_cons, List.append_assoc] at heq
      exact absurd heq.symm (hvs.2 a _)
    | cons b bs =>
      simp only [List.flatMap_cons, List.append_assoc] at heq
      obtain ⟨rfl, hrest⟩ := hitem a List.mem_cons_self b List.mem_cons_self _ _ (hbehind hus.1) (hbehind hvs.1) heq
      refine (ih (fun a ha b hb => ?_) hrest).imp_left (congrArg _)
      exact hitem a (List.mem_cons_of_mem _ ha) b (List.mem_cons_of_mem _ hb)

/-- What stands behind an item of a list. -/
def EndsItem (close : String) (ts : List Token) : Prop :=
  ∃ m ∈ [close, ","], ts.head? = some (.mark m)

/-- Lists are recognized up to a closing mark, if their items are recognized before a comma and before
    the closing mark, and do not begin with it. -/
theorem eq_of_intercalate {close : String} (hclose : close ≠ ",")
    (hitem : ∀ a ∈ as, ∀ b ∈ bs, ∀ us vs, EndsItem close us → EndsItem close vs →
      spelling a ++ us = spelling b ++ vs →
      a = b ∧ us = vs)
    (hopen : ∀ a ∈ as ++ bs, ∀ us, (spelling a ++ us).head? ≠ some (.mark close))
    (heq : comma.intercalate (as.map spelling) ++ .mark close :: us =
      comma.intercalate (bs.map spelling) ++ .mark close :: vs) : as = bs ∧ us = vs := by
  have hend : ∀ ts, EndsItem close (.mark close :: ts) ∧
      ∀ a us, .mark close :: ts ≠ comma ++ spelling a ++ us :=
    fun ts => ⟨⟨close, by simp, rfl⟩, by simp [comma, hclose]⟩
  have hcommas : ∀ a as, comma ++ comma.intercalate ((a :: as).map spelling) =
      (a :: as).flatMap fun b => comma ++ spelling b := fun a as => by
    rw [intercalate_comma, List.flatMap_cons, List.append_assoc]
  cases as with
  | nil =>
    cases bs with
    | nil => simpa using heq
    | cons b bs =>
      rw [intercalate_comma, List.append_assoc] at heq
      exact absurd (congrArg List.head? heq).symm (hopen b (by simp) _)
  | cons a as =>
    cases bs with
    | nil =>
      rw [intercalate_comma, List.append_assoc] at heq
      exact absurd (congrArg List.head? heq) (hopen a (by simp) _)
    | cons b bs =>
      -- With a comma in front of them, all items stand behind commas.
      rw [← List.append_cancel_left_eq comma, ← List.append_assoc, ← List.append_assoc, hcommas, hcommas] at heq
      obtain ⟨hlist, hrest⟩ := eq_of_flatMap (fun a ts => ⟨",", by simp, rfl⟩)
          (fun a ha b hb ts ts' hts hts' heq =>
        hitem a ha b hb ts ts' hts hts' (by simpa using heq)) (hend us) (hend vs) heq
      exact ⟨hlist, (List.cons.inj hrest).2⟩

end Lists

section Headers

variable {us vs : List Token}

theorem Ty.eq_of_name {ty ty' : Ty} (hty : ty ∈ all) (hty' : ty' ∈ all) (hname : ty.name = ty'.name) : ty = ty' :=
  Option.some.inj (by rw [← ofName?_name hty, hname, ofName?_name hty'])

theorem Literal.eq_of_token {l l' : Literal} (hl : l.WellFormed) (hl' : l'.WellFormed) (heq : l.token = l'.token) :
    l = l' := by
  rcases l with _ | (_ | _) | _ | _ | _ <;> rcases l' with _ | (_ | _) | _ | _ | _ <;>
    simp_all [token, WellFormed]

theorem Header.eq_of_tokens {h k : Header} (hh : h.WellFormed) (hk : k.WellFormed)
    (heq : h.tokens ++ us = k.tokens ++ vs) : h = k ∧ us = vs := by
  obtain ⟨name, params, ret, isPublic, isExternal⟩ := h
  obtain ⟨name', params', ret', isPublic', isExternal'⟩ := k
  obtain ⟨_, hparams, hret⟩ := hh
  obtain ⟨_, hparams', hret'⟩ := hk
  have hflags : isExternal = isExternal' ∧ isPublic = isPublic' ∧ name = name' ∧
      comma.intercalate (params.map Param.tokens) ++ .mark ")" :: space :: .word ret.name :: us =
        comma.intercalate (params'.map Param.tokens) ++ .mark ")" :: space :: .word ret'.name :: vs := by
    cases isExternal <;> cases isExternal' <;> cases isPublic <;> cases isPublic' <;>
      simp [Header.tokens] at heq ⊢ <;> exact heq
  obtain ⟨rfl, rfl, rfl, hlist⟩ := hflags
  have hitem : ∀ p ∈ params, ∀ q ∈ params', ∀ us vs, EndsItem ")" us → EndsItem ")" vs →
      p.tokens ++ us = q.tokens ++ vs → p = q ∧ us = vs := by
    rintro ⟨name, ty⟩ hp ⟨name', ty'⟩ hq us vs _ _ heq
    simp only [Param.tokens, List.cons_append, List.nil_append, List.cons.injEq, Token.word.injEq, true_and] at heq
    obtain ⟨rfl, hname, rfl⟩ := heq
    exact ⟨congrArg _ (Ty.eq_of_name (hparams _ hp).2 (hparams' _ hq).2 hname), rfl⟩
  obtain ⟨rfl, hrest⟩ := eq_of_intercalate (by decide) hitem (fun p _ us => by simp [Param.tokens]) hlist
  simp only [List.cons.injEq, Token.word.injEq, true_and] at hrest
  obtain ⟨hname, rfl⟩ := hrest
  obtain rfl := Ty.eq_of_name hret hret' hname
  exact ⟨rfl, rfl⟩

end Headers

/-- An expression is told from any other one by its tokens, where both of them end. -/
def Recognized (x : Expr) : Prop :=
  ∀ ⦃y depth us vs⦄, Ended x us → Ended y vs → x.tokens depth ++ us = y.tokens depth ++ vs →
    x = y ∧ us = vs

section Parts

variable {depth : Nat} {xs ys : List Expr} {us vs : List Token}

theorem eq_of_items {close : String} (hclose : close ∈ [")", "]"]) (hxs : ∀ x ∈ xs, x.Clear ∧ Recognized x)
    (hys : ∀ y ∈ ys, y.Clear)
    (heq : comma.intercalate (itemTokens depth xs) ++ .mark close :: us =
      comma.intercalate (itemTokens depth ys) ++ .mark close :: vs) : xs = ys ∧ us = vs := by
  have hall : ∀ m ∈ [")", "]"], m ≠ "," ∧ m ∉ openers ∧
      ∀ m' ∈ [m, ","], m' ∈ [")", "]", ",", "\n"] := by decide +kernel
  obtain ⟨hcomma, hopener, hends⟩ := hall close hclose
  rw [itemTokens_eq_map, itemTokens_eq_map] at heq
  refine eq_of_intercalate hcomma (fun x hx y hy us vs hus hvs => ?_) (fun x hx us => ?_) heq
  · obtain ⟨m, hm, hus⟩ := hus
    obtain ⟨m', hm', hvs⟩ := hvs
    exact (hxs x hx).2 (.of_mark (hxs x hx).1 (hends m hm) hus) (.of_mark (hys y hy) (hends m' hm') hvs)
  · have hclear : x.Clear := (List.mem_append.mp hx).elim (fun hx => (hxs x hx).1) (hys x)
    exact head?_ne_of_opens (hclear.opens_tokens depth us) hopener

/-- Lines are recognized up to what is no line, if each of them is. -/
theorem eq_of_lines {lead : List Token} (hxs : ∀ x ∈ xs, x.Clear ∧ Recognized x) (hys : ∀ y ∈ ys, y.Clear)
    (hus : ∀ ts, us ≠ lead ++ ts) (hvs : ∀ ts, vs ≠ lead ++ ts)
    (heq : inLines lead depth xs ++ us = inLines lead depth ys ++ vs) : xs = ys ∧ us = vs := by
  refine eq_of_flatMap (P := fun _ => True) (fun _ _ => trivial) (fun x hx y hy ts ts' _ _ heq => ?_)
    ⟨trivial, fun x ts => by simpa using hus _⟩ ⟨trivial, fun x ts => by simpa using hvs _⟩ heq
  simp only [List.append_assoc, List.append_cancel_left_eq, List.cons_append] at heq
  obtain ⟨rfl, hrest⟩ := (hxs x hx).2 (.of_mark (hxs x hx).1 (by simp) rfl) (.of_mark (hys y hy) (by simp) rfl) heq
  exact ⟨rfl, (List.cons.inj hrest).2⟩

theorem tabs_ne (depth : Nat) (us ts : List Token) : tabs depth ++ .mark "\x7d" :: us ≠ tabs (depth + 1) ++ ts := by
  intro heq
  rw [tabs, tabs, List.replicate_succ', List.append_assoc] at heq
  have hhead := List.append_cancel_left heq
  simp at hhead

end Parts

namespace Standing

variable {depth : Nat} {x y : Expr} {us vs : List Token}

theorem eq_of_last (hx : Standing x us) (hy : Standing y vs) {v w : Expr} (hparts : ∀ z ∈ x.children, Recognized z)
    (hv : x.last? = some v) (hw : y.last? = some w) (heq : v.tokens depth ++ us = w.tokens depth ++ vs) :
    v = w ∧ us = vs :=
  hparts v (Expr.mem_children_of_last? hv) (hx.last hv) (hy.last hw) heq

/-- The token behind a blank after an expression that could take a value begins none. -/
theorem not_opens (hx : Standing x us) {value : Expr} (hlacks : x.lacksValue = true) (hvalue : value.Clear)
    {ts : List Token} (hus : us = space :: (value.tokens depth ++ ts)) : False := by
  have hany : x.endings.any Expr.lacksValue = true := by
    cases x <;> simp_all [Expr.endings, Expr.lacksValue]
  have hnone := hx.follows.noValue hany
  rw [hus] at hnone
  exact Bool.false_ne_true (hnone.symm.trans (hvalue.opens_tokens depth ts))

/-- What stands behind the first arm of a conditional. -/
def armTail (depth : Nat) (no : Expr) (rest : List Token) : List Token :=
  (if no.isMissing then [] else space :: .word "else" :: space :: no.tokens depth) ++ rest

variable {test yes no : Expr}

/-- The test of a conditional ends where it seems to. -/
theorem ended_test (hx : Standing (.cond test yes no) us) (ts : List Token) :
    Ended test (space :: .word "then" :: ts) :=
  .of_space (hx.clear.child (by simp [Expr.children]) hx.clear.wellFormed.1.isMissing) (by simp) (fun _ => by simp)
    fun _ => by simp [opens]

/-- An `else` goes with the conditional that it was written for, since what stands before it does not
    end with another one that could take it. -/
theorem ended_yes (hx : Standing (.cond test yes no) us) : Ended yes (armTail depth no us) := by
  unfold armTail
  split
  · next hno => exact hx.last (by rw [Expr.last?, if_pos hno])
  · next hno =>
    have hlegible : (no.isMissing || !yes.endings.any Expr.lacksElse) = true := hx.clear.legible _ hx.clear.mem_nodes
    rw [Bool.eq_false_iff.mpr hno, Bool.false_or, Bool.not_eq_true'] at hlegible
    exact .of_space (hx.clear.child (by simp [Expr.children]) hx.clear.wellFormed.2.1.isMissing) (by simp)
      (fun h => by rw [hlegible] at h; cases h) fun _ => by simp [opens]

theorem eq_of_armTail {test' yes' no' : Expr} (hx : Standing (.cond test yes no) us)
    (hy : Standing (.cond test' yes' no') vs) (hparts : ∀ z ∈ (Expr.cond test yes no).children, Recognized z)
    (heq : armTail depth no us = armTail depth no' vs) : no = no' ∧ us = vs := by
  unfold armTail at heq
  cases hmissing : no.isMissing <;> cases hmissing' : no'.isMissing <;>
    simp only [hmissing, hmissing', if_true, Bool.false_eq_true, if_false, List.nil_append, List.cons_append] at heq
  · exact hx.eq_of_last hy hparts (by simp [Expr.last?, hmissing]) (by simp [Expr.last?, hmissing'])
      (by simpa using heq)
  · refine absurd ?_ (hy.follows.noElse (by simp [Expr.endings, Expr.lacksElse, hmissing']))
    rw [← heq]
    rfl
  · refine absurd ?_ (hx.follows.noElse (by simp [Expr.endings, Expr.lacksElse, hmissing]))
    rw [heq]
    rfl
  · exact ⟨(Expr.eq_missing hmissing).trans (Expr.eq_missing hmissing').symm, heq⟩

/-- The test of a loop ends where the body begins, since it does not end with something that could take
    the body as its value. -/
theorem ended_loop {body : Expr} (hx : Standing (.loop test body) us) :
    Ended test (space :: (body.tokens depth ++ us)) := by
  have hlegible : test.endings.any Expr.lacksValue = false := by
    simpa [Expr.isLegible] using hx.clear.legible _ hx.clear.mem_nodes
  have hopens := (hx.last (y := body) rfl).clear.opens_tokens depth us
  refine .of_space (hx.clear.child (by simp [Expr.children]) hx.clear.wellFormed.1.isMissing)
    (head?_ne_of_opens hopens (by decide)) (fun _ hhead => ?_) (fun h => by rw [hlegible] at h; cases h)
  obtain ⟨ts, hts⟩ := List.head?_eq_some_iff.mp hhead
  simp [hts, opens] at hopens

/-- The operator between two operands is told from the beginning of an expression by the blank behind
    it. -/
theorem ended_left {op : String} {left right : Expr} (hx : Standing (.binary op left right) us) (ts : List Token) :
    Ended left (space :: .mark op :: space :: ts) := by
  have hop : op ∈ binaryOperators := of_decide_eq_true (hx.clear.operators _ hx.clear.mem_nodes)
  have hequals : op ≠ "=" := by
    rintro rfl
    revert hop
    decide
  exact .of_space (hx.clear.child (by simp [Expr.children]) hx.clear.wellFormed.2.1.isMissing) (by simpa using hequals)
    (fun _ => by simp) fun _ => by simp [opens]

/-- The parts of a list are clear. -/
theorem clear_of_mem {xs : List Expr} (hx : Standing x us) (hxs : WellFormedAll xs) (hchildren : x.children = xs) :
    ∀ z ∈ xs, z.Clear :=
  fun _ hz => hx.clear.child (hchildren ▸ hz) (mem_wellFormedAll hxs hz).isMissing

/-- Expressions that do not begin with what they index are recognized, if their parts are. -/
theorem eq_of_tokens (hx : Standing x us) (hy : Standing y vs) (hxkind : x.kind ≠ .other) (hykind : y.kind ≠ .other)
    (hparts : ∀ z ∈ x.children, Recognized z) (heq : x.tokens depth ++ us = y.tokens depth ++ vs) :
    x = y ∧ us = vs := by
  have hkind : x.kind = y.kind := by
    rw [← hx.kindOf_tokens hxkind depth, heq, hy.kindOf_tokens hykind depth]
  have hwell := hx.clear.wellFormed
  have hwell' := hy.clear.wellFormed
  cases x <;> try exact absurd rfl hxkind
  all_goals cases y <;> try cases hkind
  all_goals simp only [Expr.tokens, List.cons_append, List.append_assoc, List.nil_append, List.cons.injEq, true_and,
    Token.word.injEq] at heq
  case var.var | input.input | label.label | goto.goto => simpa using heq
  case literal.literal l l' => exact heq.imp_left fun htoken => congrArg _ (Literal.eq_of_token hwell hwell' htoken)
  case block.block body body' =>
    rw [stmtTokens_eq_inLines, stmtTokens_eq_inLines] at heq
    obtain ⟨rfl, hrest⟩ := eq_of_lines (fun z hz => ⟨hx.clear_of_mem hwell rfl z hz, hparts z hz⟩)
      (hy.clear_of_mem hwell' rfl) (tabs_ne depth us) (tabs_ne depth vs) heq
    exact ⟨rfl, by simpa using hrest⟩
  case array.array elems elems' =>
    exact (eq_of_items (by simp) (fun z hz => ⟨hx.clear_of_mem hwell rfl z hz, hparts z hz⟩)
      (hy.clear_of_mem hwell' rfl) heq).imp_left (congrArg _)
  case call.call name args name' args' =>
    obtain ⟨rfl, heq⟩ := heq
    exact (eq_of_items (by simp) (fun z hz => ⟨hx.clear_of_mem hwell.2 rfl z hz, hparts z hz⟩)
      (hy.clear_of_mem hwell'.2 rfl) heq).imp_left (congrArg _)
  case define.define name ty value name' ty' value' =>
    obtain ⟨rfl, hty, heq⟩ := heq
    obtain rfl := Ty.eq_of_name hwell.2.1 hwell'.2.1 hty
    exact (hx.eq_of_last hy hparts rfl rfl heq).imp_left (congrArg _)
  case assign.assign name value name' value' =>
    obtain ⟨rfl, heq⟩ := heq
    exact (hx.eq_of_last hy hparts rfl rfl heq).imp_left (congrArg _)
  case out.out value value' => exact (hx.eq_of_last hy hparts rfl rfl heq).imp_left (congrArg _)
  case unary.unary op arg op' arg' =>
    obtain ⟨hop, heq⟩ := heq
    obtain rfl : op = op' := by
      rw [← String.toList_inj, ← spell_operatorToken, hop, spell_operatorToken]
    exact (hx.eq_of_last hy hparts rfl rfl heq).imp_left (congrArg _)
  case binary.binary op left right op' left' right' =>
    obtain ⟨rfl, hop⟩ := hparts left (by simp [Expr.children]) (hx.ended_left _) (hy.ended_left _) heq
    simp only [List.cons.injEq, true_and, Token.mark.injEq] at hop
    obtain ⟨rfl, hright⟩ := hop
    obtain ⟨rfl, hclose⟩ := hparts right (by simp [Expr.children])
      (.of_mark (hx.clear.child (by simp [Expr.children]) hwell.2.2.isMissing) (by simp) rfl)
      (.of_mark (hy.clear.child (by simp [Expr.children]) hwell'.2.2.isMissing) (by simp) rfl) hright
    exact ⟨rfl, (List.cons.inj hclose).2⟩
  case cond.cond test yes no test' yes' no' =>
    obtain ⟨rfl, hthen⟩ := hparts test (by simp [Expr.children]) (hx.ended_test _) (hy.ended_test _) heq
    simp only [List.cons.injEq, true_and] at hthen
    obtain ⟨rfl, htail⟩ := hparts yes (by simp [Expr.children]) hx.ended_yes hy.ended_yes hthen
    exact (hx.eq_of_armTail hy hparts htail).imp_left (congrArg _)
  case loop.loop test body test' body' =>
    obtain ⟨rfl, hbody⟩ := hparts test (by simp [Expr.children]) hx.ended_loop hy.ended_loop heq
    exact (hx.eq_of_last hy hparts rfl rfl (List.cons.inj hbody).2).imp_left (congrArg _)
  case func.func h body k body' =>
    obtain ⟨rfl, hbody⟩ := Header.eq_of_tokens hwell.1 hwell'.1 heq
    obtain ⟨_, hwell⟩ := hwell
    obtain ⟨_, hwell'⟩ := hwell'
    split at hwell
    · next hexternal =>
      simp only [hexternal, if_true, List.nil_append] at hwell' hbody
      exact ⟨by rw [Expr.eq_missing hwell, Expr.eq_missing hwell'], hbody⟩
    · next hinternal =>
      simp only [hinternal, Bool.false_eq_true, if_false, List.cons_append, List.cons.injEq, true_and] at hbody
      exact (hx.eq_of_last hy hparts (if_neg hinternal) (if_neg hinternal) hbody).imp_left (congrArg _)
  case ret.ret value value' | exit.exit value value' =>
    cases hmissing : value.isMissing <;> cases hmissing' : value'.isMissing <;>
      simp only [hmissing, hmissing', if_true, Bool.false_eq_true, if_false, List.nil_append, List.cons_append] at heq
    · exact (hx.eq_of_last hy hparts (by simp [Expr.last?, hmissing]) (by simp [Expr.last?, hmissing'])
        (List.cons.inj heq).2).imp_left (congrArg _)
    · exact (hy.not_opens hmissing' (hx.clear.child (by simp [Expr.children]) hmissing) heq.symm).elim
    · exact (hx.not_opens hmissing (hy.clear.child (by simp [Expr.children]) hmissing') heq).elim
    · exact ⟨by rw [Expr.eq_missing hmissing, Expr.eq_missing hmissing'], heq⟩

end Standing

/-! ## Indices -/

namespace Expr

/-- What an expression indexes in the end, if it begins with something that it indexes. -/
def front : Expr → Expr
  | .index target _ => target.front
  | .setIndex target _ _ => target.front
  | x => x

/-- The positions at which it is indexed, from the inside to the outside. -/
def positions : Expr → List Expr
  | .index target position => target.positions ++ [position]
  | .setIndex target position _ => target.positions ++ [position]
  | _ => []

/-- The value that is stored at the last of them. -/
def stored? : Expr → Option Expr
  | .setIndex _ _ value => some value
  | _ => none

end Expr

/-- The tokens of positions. -/
def positionTokens (depth : Nat) (ps : List Expr) : List Token :=
  ps.flatMap fun p => .mark "[" :: (p.tokens depth ++ [.mark "]"])

/-- The tokens of a value that is stored, if there is one. -/
def storedTokens (depth : Nat) (value : Option Expr) : List Token :=
  value.elim [] fun v => space :: .mark "=" :: space :: v.tokens depth

/-- An expression behind its front. -/
def Expr.after (depth : Nat) (x : Expr) : List Token :=
  positionTokens depth x.positions ++ storedTokens depth x.stored?

/-- Stores a value at the position that an expression is indexed with. -/
def Expr.store : Expr → Option Expr → Expr
  | .index target position, some value => .setIndex target position value
  | x, _ => x

/-- An expression begins with another one, which it indexes. -/
inductive Expr.Indexes (target position : Expr) : Expr → Prop where
  | index : Indexes target position (.index target position)
  | setIndex (value : Expr) : Indexes target position (.setIndex target position value)

namespace Expr

variable {x target position : Expr} {depth : Nat}

theorem indexes_or (hx : x.isMissing = false) : (∃ target position, Indexes target position x) ∨
    x.kind ≠ .other ∧ x.front = x ∧ x.positions = [] ∧ x.stored? = none := by
  cases x with
  | missing => cases hx
  | index target position => exact .inl ⟨target, position, .index⟩
  | setIndex target position value => exact .inl ⟨target, position, .setIndex value⟩
  | _ => exact .inr ⟨by simp [kind], rfl, rfl, rfl⟩

theorem last?_of_stored? {value : Expr} (hvalue : x.stored? = some value) : x.last? = some value := by
  cases x <;> simp_all [stored?, last?]

namespace Indexes

theorem front_eq (hx : Indexes target position x) : x.front = target.front := by
  cases hx <;> rfl

theorem positions_eq (hx : Indexes target position x) : x.positions = target.positions ++ [position] := by
  cases hx <;> rfl

theorem mem_children (hx : Indexes target position x) : target ∈ x.children ∧ position ∈ x.children := by
  cases hx <;> simp [children]

theorem tokens_eq (hx : Indexes target position x) :
    x.tokens depth = target.tokens depth ++ (positionTokens depth [position] ++ storedTokens depth x.stored?) := by
  cases hx <;> simp [tokens, positionTokens, storedTokens, stored?]

/-- What an expression indexes is closed and no store, and its parts are clear. -/
theorem clear (hindexes : Indexes target position x) (hx : x.Clear) :
    target.Clear ∧ position.Clear ∧ target.isClosed = true ∧ target.stored? = none := by
  have hclosed : target.isClosed = true := by
    cases hindexes <;> exact hx.legible _ hx.mem_nodes
  have hmissing : target.isMissing = false ∧ position.isMissing = false := by
    have hwell := hx.wellFormed
    cases hindexes with
    | index => exact ⟨hwell.1.isMissing, hwell.2.isMissing⟩
    | setIndex => exact ⟨hwell.1.isMissing, hwell.2.1.isMissing⟩
  have htarget := hx.child hindexes.mem_children.1 hmissing.1
  refine ⟨htarget, hx.child hindexes.mem_children.2 hmissing.2, hclosed, ?_⟩
  cases target with
  | setIndex target position value =>
    have hvalue := (htarget.of_last? (y := value) rfl).1.isMissing
    simp [isClosed, endings, endings_ne_nil hvalue] at hclosed
  | _ => rfl

end Indexes

/-- An expression is made up of its front, its positions and what is stored. -/
theorem Clear.eq_store (hx : x.Clear) : x = store (x.positions.foldl index x.front) x.stored? := by
  induction x using induct_children with
  | hstep x ih =>
    rcases indexes_or hx.isMissing with ⟨target, position, hindexes⟩ | ⟨_, hfront, hpositions, hstored⟩
    · obtain ⟨htarget, _, _, hnone⟩ := hindexes.clear hx
      have hmade := ih target hindexes.mem_children.1 htarget
      rw [hnone, store] at hmade
      · rw [hindexes.front_eq, hindexes.positions_eq, List.foldl_append, ← hmade]
        cases hindexes <;> rfl
      · simp
    · rw [hfront, hpositions, hstored, List.foldl_nil]
      cases x <;> rfl

theorem Clear.of_mem_positions (hx : x.Clear) {p : Expr} (hp : p ∈ x.positions) : p.Clear := by
  induction x using induct_children with
  | hstep x ih =>
    rcases indexes_or hx.isMissing with ⟨target, position, hindexes⟩ | ⟨_, _, hpositions, _⟩
    · obtain ⟨htarget, hposition, _⟩ := hindexes.clear hx
      rw [hindexes.positions_eq, List.mem_append, List.mem_singleton] at hp
      rcases hp with hp | rfl
      · exact ih target hindexes.mem_children.1 htarget hp
      · exact hposition
    · rw [hpositions] at hp
      cases hp

end Expr

variable {x : Expr} {us vs : List Token} {depth : Nat}

/-- An expression stands where its front does, followed by what it is indexed with. -/
theorem Standing.front (hx : Standing x us) (depth : Nat) :
    x.tokens depth = x.front.tokens depth ++ x.after depth ∧ Standing x.front (x.after depth ++ us) ∧
      x.front.kind ≠ .other := by
  induction x using Expr.induct_children generalizing us with
  | hstep x ih =>
    rcases Expr.indexes_or hx.clear.isMissing with ⟨target, position, hindexes⟩ |
        ⟨hkind, hfront, hpositions, hstored⟩
    · obtain ⟨htarget, _, hclosed, hnone⟩ := hindexes.clear hx.clear
      have hinside : Standing target (.mark "[" :: (position.tokens depth ++
          .mark "]" :: (storedTokens depth x.stored? ++ us))) := .indexed htarget hclosed
      obtain ⟨htokens, hstands, hkind⟩ := ih target hindexes.mem_children.1 hinside
      have hafter : x.after depth =
          target.after depth ++ (positionTokens depth [position] ++ storedTokens depth x.stored?) := by
        simp [Expr.after, hnone, hindexes.positions_eq, positionTokens, storedTokens]
      rw [hafter, hindexes.front_eq]
      refine ⟨?_, by simpa [positionTokens] using hstands, hkind⟩
      rw [hindexes.tokens_eq, htokens, List.append_assoc]
    · rw [Expr.after, hfront, hpositions, hstored]
      exact ⟨(List.append_nil _).symm, hx, hkind⟩

/-- Positions are recognized up to what is none. -/
theorem eq_of_positions {ps qs : List Expr} (hps : ∀ p ∈ ps, p.Clear ∧ Recognized p)
    (hqs : ∀ q ∈ qs, q.Clear) (hus : us.head? ≠ some (.mark "[")) (hvs : vs.head? ≠ some (.mark "["))
    (heq : positionTokens depth ps ++ us = positionTokens depth qs ++ vs) : ps = qs ∧ us = vs := by
  refine eq_of_flatMap (P := fun _ => True) (fun _ _ => trivial) (fun p hp q hq ts ts' _ _ heq => ?_)
    ⟨trivial, fun p ts hts => hus (by rw [hts]; rfl)⟩ ⟨trivial, fun p ts hts => hvs (by rw [hts]; rfl)⟩ heq
  simp only [List.cons_append, List.append_assoc, List.nil_append, List.cons.injEq, true_and] at heq
  obtain ⟨rfl, hrest⟩ := (hps p hp).2 (.of_mark (hps p hp).1 (by simp) rfl) (.of_mark (hqs q hq) (by simp) rfl) heq
  exact ⟨rfl, (List.cons.inj hrest).2⟩

/-- What is stored is recognized, and where nothing is stored, nothing behind it looks like it. -/
theorem eq_of_stored {y : Expr} (hx : Ended x us) (hy : Ended y vs)
    (hvalue : ∀ v, x.stored? = some v → Recognized v)
    (heq : storedTokens depth x.stored? ++ us = storedTokens depth y.stored? ++ vs) :
    x.stored? = y.stored? ∧ us = vs := by
  cases hstored : x.stored? <;> cases hstored' : y.stored? <;> rw [hstored, hstored'] at heq
  · exact ⟨rfl, heq⟩
  · exact absurd (congrArg (fun ts => (behindBlank ts).head?) heq) hx.follows.noAssign
  · exact absurd (congrArg (fun ts => (behindBlank ts).head?) heq).symm hy.follows.noAssign
  · next v w =>
    have hlast := hx.last (Expr.last?_of_stored? hstored)
    have hlast' := hy.last (Expr.last?_of_stored? hstored')
    exact (hvalue v hstored hlast hlast' (by simpa [storedTokens] using heq)).imp_left (congrArg _)

/-- The parts of an expression that is indexed are recognized, and those of its front. -/
structure PartsRecognized (x : Expr) : Prop where
  front : ∀ z ∈ x.front.children, Recognized z
  positions : ∀ p ∈ x.positions, Recognized p
  stored : ∀ v, x.stored? = some v → Recognized v

theorem PartsRecognized.recognized (hparts : PartsRecognized x) : Recognized x := by
  intro y depth us vs hx hy heq
  obtain ⟨htokens, hstands, hkind⟩ := hx.front depth
  obtain ⟨htokens', hstands', hkind'⟩ := hy.front depth
  rw [htokens, htokens', List.append_assoc, List.append_assoc] at heq
  obtain ⟨hfront, hafter⟩ := hstands.eq_of_tokens hstands' hkind hkind' hparts.front heq
  have hhead : ∀ {z ts}, Ended z ts → (storedTokens depth z.stored? ++ ts).head? ≠ some (.mark "[") := by
    intro z ts hz
    cases z.stored? with
    | none => exact hz.noIndex
    | some v => simp [storedTokens, space]
  rw [Expr.after, Expr.after, List.append_assoc, List.append_assoc] at hafter
  obtain ⟨hpositions, hrest⟩ := eq_of_positions
      (fun p hp => ⟨hx.clear.of_mem_positions hp, hparts.positions p hp⟩)
    (fun q hq => hy.clear.of_mem_positions hq) (hhead hx) (hhead hy) hafter
  obtain ⟨hstored, rfl⟩ := eq_of_stored hx hy hparts.stored hrest
  refine ⟨?_, rfl⟩
  rw [hx.clear.eq_store, hfront, hpositions, hstored, ← hy.clear.eq_store]

/-- A clear expression is recognized wherever it can stand. -/
theorem Expr.Clear.recognized (hx : x.Clear) : Recognized x := by
  suffices hparts : PartsRecognized x from hparts.recognized
  induction x using induct_children with
  | hstep x ih =>
    have hchild : ∀ z ∈ x.children, Recognized z := fun z hz _ _ _ _ hended =>
      (ih z hz hended.clear).recognized hended
    rcases indexes_or hx.isMissing with ⟨target, position, hindexes⟩ | ⟨_, hfront, hpositions, hstored⟩
    · have htarget := ih target hindexes.mem_children.1 (hindexes.clear hx).1
      refine ⟨hindexes.front_eq ▸ htarget.front, fun p hp => ?_, fun v hv =>
        hchild v (mem_children_of_last? (last?_of_stored? hv))⟩
      rw [hindexes.positions_eq, List.mem_append, List.mem_singleton] at hp
      rcases hp with hp | rfl
      · exact htarget.positions p hp
      · exact hchild p hindexes.mem_children.2
    · exact ⟨hfront.symm ▸ hchild, by simp [hpositions], by simp [hstored]⟩

end TreeCompiler.Tree
