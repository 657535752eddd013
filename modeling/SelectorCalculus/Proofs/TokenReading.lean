import SelectorCalculus.Proofs.LabelKeys
import SelectorCalculus.Selector.Token
import Mathlib.Data.List.Infix
/-! The text of a simple selector, up to its selector argument, is read back as one token. -/

namespace SelectorCalculus

open Text Token

variable {l : Label} {x : List Char}

/-! ### Legible labels -/

/-- The word that sets a selector argument apart from the formula before it. -/
def ofWord : List Char := [' ', 'o', 'f', ' ']

/-- The name by which the reader knows a pseudo selector. -/
def Label.knownName (l : Label) : String := String.ofList (l.name.toList.map lowerChar)

/-- Whether a pseudo selector is written with an argument of its form. Where a selector argument
follows the formula, the word between them must be the first one. -/
def Label.fitsArgument (l : Label) (hasSelector : Bool) : Bool :=
  if listPseudos.contains l.knownName then l.argument = ""
  else l.argument.toList.all (· ≠ ')') &&
    if formulaPseudos.contains l.knownName then
      trim l.argument.toList = l.argument.toList && (!hasSelector || l.argument ≠ "") &&
        !decide (ofWord <:+: l.argument.toList ++ if hasSelector then ofWord.dropLast else [])
    else !hasSelector

/-- Whether a simple selector can be read back from its text. -/
def Label.isLegible (l : Label) (hasSelector : Bool) : Bool :=
  match l.kind with
  | .attr =>
    l.isProper hasSelector && (l.ns = "" || isName l.ns.toList) &&
      l.value.toList.all (fun c => c ≠ '"' && c ≠ '\\' && c ≠ '\n') &&
      (l.modifier = "" || isName l.modifier.toList)
  | .pseudo =>
    l = { kind := .pseudo, name := l.name, element := l.element, argument := l.argument } &&
      isName l.name.toList && l.fitsArgument hasSelector
  | _ => l.isProper hasSelector

/-! ### Names -/

/-- No name goes on here. -/
def EndsWord (x : List Char) : Prop := ∀ c ∈ x.head?, ¬ Identifier.isBody c

theorem isNameChar_eq (c : Char) : isNameChar c = Identifier.isBody c := by
  simp only [isNameChar, Identifier.isBody, Identifier.isStart, Char.isAlphanum]
  cases c.isAlpha <;> cases c.isDigit <;> cases c == '-' <;> cases c == '_' <;> simp

theorem span_append {p : Char → Bool} {w : List Char} (hw : ∀ c ∈ w, p c)
    (hx : ∀ c ∈ x.head?, ¬ p c) : (w ++ x).span p = (w, x) := by
  rw [List.span_eq_takeWhile_dropWhile, List.takeWhile_append_of_pos hw,
    List.dropWhile_append_of_pos hw]
  cases x with
  | nil => simp
  | cons c x => simp [hx c rfl]

theorem exists_cons_of_isName {w : List Char} (h : isName w) :
    ∃ c u, w = c :: u ∧ Identifier.isBody c := by
  obtain ⟨c, u, rfl⟩ := List.exists_cons_of_ne_nil (isName_iff.1 h).1
  exact ⟨c, u, rfl, isName_cons h⟩

theorem isName_append_ne_cons {w u : List Char} {c : Char} (h : isName w)
    (hc : Identifier.isBody c = false) : w ++ x ≠ c :: u := by
  obtain ⟨d, v, rfl, hd⟩ := exists_cons_of_isName h
  rintro ⟨rfl⟩
  simp [hc] at hd

theorem readName_append {name : String} (h : isName name.toList) (hx : EndsWord x) :
    readName (name.toList ++ x) = .ok (name, x) := by
  obtain ⟨hne, hall⟩ := isName_iff.1 h
  rw [readName, span_append (fun c hc => isNameChar_eq c ▸ hall c hc)
    (fun c hc => isNameChar_eq c ▸ hx c hc)]
  obtain ⟨c, w, hw⟩ := List.exists_cons_of_ne_nil hne
  rw [hw]
  simp [← hw]

theorem readNameOrStar_append {name : String} (h : isNameOrStar name.toList)
    (hx : EndsWord x) : readNameOrStar (name.toList ++ x) = .ok (name, x) := by
  simp only [isNameOrStar, Bool.or_eq_true, beq_iff_eq] at h
  rcases h with h | h
  · obtain rfl : name = "*" := String.toList_inj.1 h
    rfl
  · rw [readNameOrStar, readName_append h hx]
    · exact fun rest => isName_append_ne_cons h rfl
    · exact fun rest => isName_append_ne_cons h rfl

/-! ### Types and marked names -/

/-- What can follow a simple selector: nothing that could belong to it. -/
def EndsSimple (x : List Char) : Prop :=
  ∀ c ∈ x.head?, ¬ Identifier.isBody c ∧ c ≠ '|' ∧ c ≠ '('

theorem EndsSimple.endsWord (h : EndsSimple x) : EndsWord x := fun c hc => (h c hc).1

theorem endsWord_cons {c : Char} (h : Identifier.isBody c = false) : EndsWord (c :: x) := by
  simp [EndsWord, h]

theorem readType_append {ns name : String} (hns : ns = "" ∨ isNameOrStar ns.toList)
    (hname : isNameOrStar name.toList) (hx : EndsSimple x) :
    readType ((namespaced ns name).toList ++ x) = .ok (.simple (.ofType ns name), x) := by
  by_cases hempty : ns = ""
  · subst hempty
    have hread := readNameOrStar_append hname hx.endsWord
    simp only [namespaced, if_true, readType, hread, bind, Except.bind]
    split
    · exact absurd rfl (hx '|' rfl).2.1
    · rfl
  · rw [toList_namespaced hempty]
    have hns := readNameOrStar_append (hns.resolve_left hempty) (x := '|' :: (name.toList ++ x))
      (endsWord_cons rfl)
    have hname := readNameOrStar_append hname hx.endsWord
    simp only [readType, hns, hname, bind, Except.bind]
    rfl

theorem read_type {c : Char} (h : Kind.typeName.opens c) (cs : List Char) :
    Token.read c cs = readType (c :: cs) := by
  have hne (d : Char) (hd : !Kind.typeName.opens d) : c ≠ d := by
    rintro rfl
    simp [h] at hd
  have hspace : isSpace c = false := by
    simp [isSpace, hne ' ' (by decide), hne '\n' (by decide), hne '\t' (by decide)]
  have hopen : c = '*' ∨ c = '|' ∨ isNameChar c := by
    simp only [Kind.opens, Bool.or_eq_true, decide_eq_true_eq] at h
    rw [isNameChar_eq]
    tauto
  unfold Token.read
  split
  all_goals first
    | exact absurd h (by decide)
    | rw [if_neg (by simp [hspace]), if_pos hopen]

theorem readNamed_append {name : String} (kind : Kind) (h : isName name.toList)
    (hx : EndsWord x) : readNamed kind (name.toList ++ x) = .ok (.simple { kind, name }, x) := by
  rw [readNamed, readName_append h hx]
  rfl

/-! ### Attribute tests -/

theorem skipSpace_cons {c : Char} (h : isSpace c = false) (x : List Char) :
    skipSpace (c :: x) = c :: x := by
  rw [skipSpace, List.dropWhile_cons_of_neg (by simp [h])]

theorem isSpace_of_isBody {c : Char} (h : Identifier.isBody c) : isSpace c = false := by
  rw [Bool.eq_false_iff]
  intro hspace
  simp only [isSpace, Bool.or_eq_true, beq_iff_eq] at hspace
  obtain (rfl | rfl) | rfl := hspace <;> exact absurd h (by decide)

theorem skipSpace_name {name : String} (h : isName name.toList) (x : List Char) :
    skipSpace (name.toList ++ x) = name.toList ++ x := by
  obtain ⟨c, w, hw, hbody⟩ := exists_cons_of_isName h
  rw [hw]
  exact skipSpace_cons (isSpace_of_isBody hbody) _

/-- A bar before the comparison belongs to it, one before a name does not. -/
theorem readAttributeName_append {ns name : String} (hns : ns = "" ∨ isName ns.toList)
    (hname : isName name.toList) (hx : EndsWord x) (hbar : ∀ c u, x = '|' :: c :: u → c = '=') :
    readAttributeName ((namespaced ns name).toList ++ x) = .ok (ns, name, x) := by
  by_cases hempty : ns = ""
  · subst hempty
    simp only [namespaced, if_true, readAttributeName, readName_append hname hx, bind, Except.bind]
    split
    · rename_i c u
      rw [if_pos (hbar c u rfl)]
      rfl
    · rfl
  · obtain ⟨c, w, hw, hbody⟩ := exists_cons_of_isName hname
    have hc : c ≠ '=' := by
      rintro rfl
      exact absurd hbody (by decide)
    have hns := readName_append (hns.resolve_left hempty) (x := '|' :: (name.toList ++ x))
      (endsWord_cons rfl)
    have hname := readName_append hname hx
    rw [toList_namespaced hempty]
    rw [hw] at hns hname ⊢
    rw [List.cons_append] at hns hname ⊢
    simp only [readAttributeName, hns, hname, bind, Except.bind, if_neg hc]
    rfl

theorem isBody_of_isTail {cs : List Char} (h : Identifier.isTail 0 cs) (hcs : '\\' ∉ cs) :
    ∀ c ∈ cs, Identifier.isBody c := by
  induction cs with
  | nil => simp
  | cons c cs ih =>
    rw [List.mem_cons, not_or] at hcs
    rw [Identifier.isTail, if_neg (Ne.symm hcs.1), Bool.and_eq_true] at h
    exact List.forall_mem_cons.2 ⟨h.1, ih h.2 hcs.2⟩

theorem isName_of_startsAndEnds {cs : List Char} (h : Identifier.startsAndEnds cs)
    (hcs : '\\' ∉ cs) : isName cs := by
  cases cs with
  | nil => cases h
  | cons c cs =>
    rw [List.mem_cons, not_or] at hcs
    rw [Identifier.startsAndEnds, if_neg (Ne.symm hcs.1), Bool.and_eq_true] at h
    refine isName_iff.2 ⟨List.cons_ne_nil _ _, List.forall_mem_cons.2 ⟨?_, ?_⟩⟩
    · simp [Identifier.isBody, h.1]
    · exact isBody_of_isTail h.2 hcs.2

theorem isName_of_isIdentifier {v : String} (h : Identifier.isIdentifier v)
    (hv : '\\' ∉ v.toList) : isName v.toList := by
  unfold Identifier.isIdentifier at h
  split at h
  · rename_i rest hrest
    rw [hrest] at hv ⊢
    have hall := isBody_of_isTail h fun hmem => hv (by simp [hmem])
    exact isName_iff.2 ⟨List.cons_ne_nil _ _, by simpa using ⟨by decide, hall⟩⟩
  · rename_i rest _ hrest
    rw [hrest] at hv ⊢
    have hname := isName_of_startsAndEnds h fun hmem => hv (by simp [hmem])
    exact isName_append (show isName ['-'] by decide) hname
  · exact isName_of_startsAndEnds h hv

theorem readValue_append {v : String} (hv : ∀ c ∈ v.toList, c ≠ '"' ∧ c ≠ '\\' ∧ c ≠ '\n')
    (hx : EndsWord x) : readValue (skipSpace ((attributeValue v).toList ++ x)) = .ok (v, x) := by
  unfold attributeValue
  split_ifs with hident
  · have hname := isName_of_isIdentifier hident fun h => (hv _ h).2.1 rfl
    rw [skipSpace_name hname, ← readName_append hname hx]
    obtain ⟨c, w, hw, hbody⟩ := exists_cons_of_isName hname
    rw [hw]
    refine if_neg fun hquote => ?_
    rcases hquote with rfl | rfl <;> exact absurd hbody (by decide)
  · have hplain : v.toList.flatMap escapeValueChar = v.toList := by
      have hsingle : ∀ c ∈ v.toList, escapeValueChar c = [c] := fun c hc => by
        simp [escapeValueChar, hv c hc]
      rw [List.flatMap_congr hsingle, List.flatMap_singleton']
    have hspan : (v.toList ++ '"' :: x).span (· ≠ '"') = (v.toList, '"' :: x) :=
      span_append (fun c hc => by simp [(hv c hc).1]) (by simp)
    simp only [String.toList_ofList, hplain, List.cons_append, List.append_assoc, List.nil_append]
    rw [skipSpace_cons rfl, readValue, if_pos (Or.inl rfl), readString, hspan]
    simp

theorem readModifier_append (hm : l.modifier = "" ∨ isName l.modifier.toList) (x : List Char) :
    readModifier (l.modifierText ++ ']' :: x) = .ok (l.modifier, ']' :: x) := by
  have hclose : skipSpace (']' :: x) = ']' :: x := skipSpace_cons rfl x
  by_cases hempty : l.modifier = ""
  · rw [Label.modifierText, if_pos hempty, List.nil_append, hempty]
    simp only [readModifier, hclose]
    rfl
  · have hname := hm.resolve_left hempty
    have hspace : skipSpace (' ' :: (l.modifier.toList ++ ']' :: x)) =
        l.modifier.toList ++ ']' :: x := by
      rw [skipSpace, List.dropWhile_cons_of_pos rfl]
      exact skipSpace_name hname _
    have hhead : (l.modifier.toList ++ ']' :: x).head? ≠ some ']' := by
      obtain ⟨c, w, hw, hbody⟩ := exists_cons_of_isName hname
      rw [hw]
      rintro ⟨rfl⟩
      exact absurd hbody (by decide)
    rw [Label.modifierText, if_neg hempty, List.cons_append]
    simp only [readModifier, hspace]
    rw [if_pos ⟨rfl, hhead⟩, readName_append hname (endsWord_cons rfl)]
    simp only [bind, Except.bind, hclose]
    rfl

section Comparisons

variable {op : String} (h : op ∈ comparisons) (y : List Char)

include h

theorem comparisons_ahead : EndsWord (op.toList ++ y) ∧
    (∀ c u, op.toList ++ y = '|' :: c :: u → c = '=') ∧
    skipSpace (op.toList ++ y) = op.toList ++ y ∧ ∀ u, op.toList ++ y ≠ ']' :: u := by
  simp only [comparisons, List.mem_cons, List.not_mem_nil, or_false] at h
  rcases h with rfl | rfl | rfl | rfl | rfl | rfl <;>
    exact ⟨endsWord_cons rfl, by simp, skipSpace_cons rfl _, by simp⟩

theorem comparisons_span : ∃ w, (op.toList ++ y).span (· ≠ '=') = (w, '=' :: y) ∧
    String.ofList (w ++ ['=']) = op := by
  simp only [comparisons, List.mem_cons, List.not_mem_nil, or_false] at h
  rcases h with rfl | rfl | rfl | rfl | rfl | rfl <;> exact ⟨_, rfl, by decide⟩

end Comparisons

theorem Label.isLegible_attr {b : Bool} (h : l.isLegible b) (hk : l.kind = .attr) :
    l.isProper b ∧ (l.ns = "" ∨ isName l.ns.toList) ∧
      (∀ c ∈ l.value.toList, c ≠ '"' ∧ c ≠ '\\' ∧ c ≠ '\n') ∧
      (l.modifier = "" ∨ isName l.modifier.toList) := by
  simpa [isLegible, hk, and_assoc] using h

theorem Label.eq_of_isProper_attr {b : Bool} (h : l.isProper b) (hk : l.kind = .attr) :
    l = { kind := .attr, name := l.name, ns := l.ns, op := l.op, value := l.value,
          modifier := l.modifier } := by
  simp only [isProper, hk, Bool.and_eq_true, decide_eq_true_eq] at h
  exact h.1.1.1.1

theorem readAttribute_append (h : l.isLegible false) (hk : l.kind = .attr) (x : List Char) :
    readAttribute ((namespaced l.ns l.name).toList ++ (l.comparison ++ ']' :: x)) =
      .ok (.simple { l with }, x) := by
  obtain ⟨hproper, hns, hvalue, hmodifier⟩ := Label.isLegible_attr h hk
  obtain ⟨-, hop, hunset⟩ := Label.isProper_attr hproper hk
  have hname := Label.isName_of_isProper hproper (by simp [hk])
  have hself := Label.eq_of_isProper_attr hproper hk
  have hskip (y : List Char) : skipSpace ((namespaced l.ns l.name).toList ++ y) =
      (namespaced l.ns l.name).toList ++ y := by
    by_cases hempty : l.ns = ""
    · simpa only [namespaced, hempty, if_true] using skipSpace_name hname y
    · rw [toList_namespaced hempty]
      exact skipSpace_name (hns.resolve_left hempty) _
  by_cases hempty : l.op = ""
  · have hread := readAttributeName_append hns hname (x := ']' :: x) (endsWord_cons rfl) (by simp)
    obtain ⟨hv, hm⟩ := hunset hempty
    rw [Label.comparison, if_pos hempty, List.nil_append]
    simp only [readAttribute, hskip, hread, skipSpace_cons (c := ']') rfl, bind, Except.bind]
    simp only [hempty, hv, hm] at hself
    rw [← hself]
    rfl
  · have hmodifierText : EndsWord (l.modifierText ++ ']' :: x) := by
      unfold Label.modifierText
      split_ifs <;> exact endsWord_cons rfl
    have hvalue := readValue_append hvalue hmodifierText
    have hmodifier := readModifier_append hmodifier x
    rw [Label.comparison, if_neg hempty, List.append_assoc, List.append_assoc]
    generalize (attributeValue l.value).toList ++ (l.modifierText ++ ']' :: x) = y at hvalue ⊢
    obtain ⟨hword, hbar, hspace, hclose⟩ := comparisons_ahead (hop hempty) y
    obtain ⟨w, hspan, hsign⟩ := comparisons_span (hop hempty) y
    have hread := readAttributeName_append hns hname hword hbar
    simp only [readAttribute, hskip, hread, hspace, hspan, hvalue, hmodifier, closeBracket, hsign,
      bind, Except.bind]
    rw [← hself]

/-! ### Pseudo selectors -/

theorem splitFormula_append {a : List Char} (hclose : ∀ c ∈ a, c ≠ ')')
    (hof : ∀ b, b <:+ a → b ≠ [] → ¬ ofWord <+: b ++ x) (hx : splitFormula x = ([], x)) :
    splitFormula (a ++ x) = (a, x) := by
  induction a with
  | nil => exact hx
  | cons c a ih =>
    have hof' := hof (c :: a) List.suffix_rfl (List.cons_ne_nil _ _)
    have ih := ih (fun d hd => hclose d (List.mem_cons_of_mem _ hd))
      fun b hb => hof b (hb.trans (List.suffix_cons _ _))
    rw [List.cons_append, splitFormula, if_neg, ih]
    refine not_or.2 ?_
    exact ⟨hclose c List.mem_cons_self, fun h => hof' (List.isPrefixOf_iff_prefix.1 h)⟩

theorem splitFormula_close {a : List Char} (hclose : ∀ c ∈ a, c ≠ ')') (hof : ¬ ofWord <:+: a) :
    splitFormula (a ++ ')' :: x) = (a, ')' :: x) := by
  refine splitFormula_append hclose (fun b hb _ hword => ?_) (by simp [splitFormula])
  have hstart : ofWord <+: b := by
    obtain ⟨u, hu⟩ := hword
    rcases List.append_eq_append_iff.1 hu with ⟨w, hw, -⟩ | ⟨w, hw, hrest⟩
    · exact ⟨w, hw.symm⟩
    · cases w with
      | nil => exact ⟨[], by simp [hw]⟩
      | cons c w =>
        obtain rfl : ')' = c := (List.cons.inj hrest).1
        exact absurd (hw ▸ by simp : ')' ∈ ofWord) (by decide)
  exact hof (hstart.isInfix.trans hb.isInfix)

theorem splitFormula_word {a : List Char} (hclose : ∀ c ∈ a, c ≠ ')')
    (hof : ¬ ofWord <:+: a ++ ofWord.dropLast) :
    splitFormula (a ++ (ofWord ++ x)) = (a, ofWord ++ x) := by
  refine splitFormula_append hclose (fun b hb hne hword => hof ?_) (by simp [splitFormula, ofWord])
  have hlength : 0 < b.length := List.length_pos_iff.2 hne
  have hlonger : b ++ ofWord.dropLast <+: b ++ (ofWord ++ x) :=
    (List.prefix_append_right_inj b).2 ((List.dropLast_prefix _).trans (List.prefix_append _ _))
  have hstart : ofWord <+: b ++ ofWord.dropLast :=
    List.prefix_of_prefix_length_le hword hlonger (by simp [ofWord]; omega)
  obtain ⟨u, hu⟩ := hb
  exact hstart.isInfix.trans ⟨u, [], by simp [← hu]⟩

theorem Label.isLegible_pseudo {b : Bool} (h : l.isLegible b) (hk : l.kind = .pseudo) :
    l = { kind := .pseudo, name := l.name, element := l.element, argument := l.argument } ∧
      isName l.name.toList ∧ l.fitsArgument b := by
  simpa [isLegible, hk, and_assoc] using h

theorem Label.withoutArgument_eq (l : Label)
    (h : l = { kind := .pseudo, name := l.name, element := l.element, argument := l.argument }) :
    { l with argument := "" } =
      ({ kind := .pseudo, name := l.name, element := l.element } : Label) := by
  rw [h]

/-- A pseudo selector takes a list, a formula or any text, as its name says. -/
theorem Label.fitsArgument_iff {b : Bool} : l.fitsArgument b ↔
    (listPseudos.contains l.knownName = true ∧ l.argument = "") ∨
    (listPseudos.contains l.knownName = false ∧ (∀ c ∈ l.argument.toList, c ≠ ')') ∧
      ((formulaPseudos.contains l.knownName = true ∧
          trim l.argument.toList = l.argument.toList ∧ (b → l.argument ≠ "") ∧
          ¬ ofWord <:+: l.argument.toList ++ if b then ofWord.dropLast else []) ∨
        (formulaPseudos.contains l.knownName = false ∧ b = false))) := by
  unfold fitsArgument
  cases listPseudos.contains l.knownName <;> cases formulaPseudos.contains l.knownName <;>
    cases b <;> simp [and_assoc]

theorem readArgument_plain (h : l.fitsArgument false) (harg : l.argument ≠ "") (x : List Char) :
    readArgument { l with argument := "" } (l.argument.toList ++ ')' :: x) =
      .ok (.simple { l with }, x) := by
  rcases Label.fitsArgument_iff.1 h with
    ⟨-, hempty⟩ | ⟨hlist, hclose, ⟨hformula, htrim, -, hof⟩ | ⟨hformula, -⟩⟩
  · exact absurd hempty harg
  · have hsplit := splitFormula_close (x := x) hclose (by simpa using hof)
    unfold Label.knownName at hlist hformula
    simp only [readArgument, hlist, hformula, hsplit, htrim, String.ofList_toList,
      Bool.false_eq_true, if_false, if_true]
  · have hspan : (l.argument.toList ++ ')' :: x).span (· ≠ ')') = (l.argument.toList, ')' :: x) :=
      span_append (fun c hc => by simpa using hclose c hc) (by simp)
    unfold Label.knownName at hlist hformula
    simp only [readArgument, hlist, hformula, hspan, String.ofList_toList, Bool.false_eq_true,
      if_false]

theorem readArgument_nested (h : l.fitsArgument true) (x : List Char) :
    readArgument { l with argument := "" }
      (l.argument.toList ++ ((if l.argument = "" then [] else ofWord) ++ x)) =
        .ok (.opening l, x) := by
  rcases Label.fitsArgument_iff.1 h with
    ⟨hlist, hempty⟩ | ⟨hlist, hclose, ⟨hformula, htrim, harg, hof⟩ | ⟨-, hfalse⟩⟩
  · unfold Label.knownName at hlist
    simp only [readArgument, hlist, hempty, if_true, String.toList_empty, List.nil_append]
    rw [← hempty]
  · have hsplit := splitFormula_word (x := x) hclose (by simpa using hof)
    unfold Label.knownName at hlist hformula
    simp only [readArgument, hlist, hformula, harg rfl, hsplit, htrim, String.ofList_toList,
      Bool.false_eq_true, if_false, if_true]
    rfl
  · cases hfalse

/-- Only a parenthesis right behind the name opens an argument. -/
theorem readPseudo_append {name : String} (h : isName name.toList) (element : Bool) :
    EndsWord x → readPseudo ((if element then [':'] else []) ++ (name.toList ++ x)) =
      match x with
      | '(' :: rest => readArgument { kind := .pseudo, name, element } rest
      | _ => .ok (.simple { kind := .pseudo, name, element }, x) := by
  intro hx
  have hname := readName_append h hx
  cases element with
  | true =>
    rw [if_pos rfl, List.cons_append, List.nil_append]
    unfold readPseudo
    simp only [hname, bind, Except.bind]
    rfl
  | false =>
    rw [if_neg Bool.false_ne_true, List.nil_append]
    unfold readPseudo
    split
    rename_i heq
    split at heq
    · rename_i rest hrest
      exact absurd hrest (isName_append_ne_cons h rfl)
    · cases heq
      simp only [hname, bind, Except.bind]
      rfl

/-! ### Tokens -/

theorem Label.render_pseudo (hk : l.kind = .pseudo) (selector : Option String) :
    (l.render selector).toList = ':' :: ((if l.element then [':'] else []) ++
      (l.name.toList ++ (l.parenthesized selector).toList)) := by
  cases he : l.element <;> simp [render, hk, colons, he]

theorem Label.render_attr (hk : l.kind = .attr) : (l.render none).toList =
    '[' :: ((namespaced l.ns l.name).toList ++ (l.comparison ++ [']'])) := by
  simpa only [key, hk] using key_attr hk none

theorem readPseudo_plain (h : l.isLegible false) (hk : l.kind = .pseudo) (hx : EndsSimple x) :
    readPseudo ((if l.element then [':'] else []) ++
      (l.name.toList ++ ((l.parenthesized none).toList ++ x))) = .ok (.simple { l with }, x) := by
  obtain ⟨hself, hname, hfits⟩ := Label.isLegible_pseudo h hk
  by_cases harg : l.argument = ""
  · rw [Label.parenthesized, if_pos harg, String.toList_empty, List.nil_append,
      readPseudo_append hname _ hx.endsWord]
    split
    · exact absurd rfl (hx '(' rfl).2.2
    · rw [hself, harg]
  · rw [Label.parenthesized_none harg, readPseudo_append hname _ (endsWord_cons rfl)]
    have hread := readArgument_plain hfits harg x
    rwa [l.withoutArgument_eq hself] at hread

theorem Label.isProper_of_isLegible {b : Bool} (h : l.isLegible b) (hk : l.kind ≠ .pseudo) :
    l.isProper b := by
  unfold isLegible at h
  split at h
  · simp only [Bool.and_eq_true] at h
    exact h.1.1.1
  · contradiction
  · exact h

theorem readNamed_plain (h : l.isLegible false) (hk : l.kind ∈ [.className, .id, .placeholder])
    (hx : EndsSimple x) : readNamed l.kind (l.name.toList ++ x) = .ok (.simple { l with }, x) := by
  have hproper := Label.isProper_of_isLegible h fun hpseudo => by simp [hpseudo] at hk
  have hname := Label.isName_of_isProper hproper fun htype => by simp [htype] at hk
  have hself : l = { kind := l.kind, name := l.name } := by
    simp only [List.mem_cons, List.not_mem_nil, or_false] at hk
    rcases hk with hk | hk | hk <;>
      simp only [Label.isProper, hk, Bool.and_eq_true, decide_eq_true_eq] at hproper ⊢ <;>
      exact hproper.1.1
  rw [readNamed_append _ hname hx.endsWord, ← hself]

theorem readType_plain (h : l.isLegible false) (hk : l.kind = .typeName) (hx : EndsSimple x) :
    readType ((namespaced l.ns l.name).toList ++ x) = .ok (.simple { l with }, x) := by
  have hproper := Label.isProper_of_isLegible h (by simp [hk])
  obtain ⟨hname, hns⟩ := Label.isProper_type hproper hk
  have hself : l = { kind := .typeName, name := l.name, ns := l.ns } := by
    simp only [Label.isProper, hk, Bool.and_eq_true, decide_eq_true_eq] at hproper
    exact hproper.1.1.1
  rw [readType_append hns hname hx, hself]
  rfl

/-- A simple selector without selector argument is one token. -/
theorem read_plain (h : l.isLegible false) (hx : EndsSimple x) : ∃ c w,
    (l.render none).toList = c :: w ∧ l.kind.opens c ∧
      Token.read c (w ++ x) = .ok (.simple { l with }, x) := by
  cases hk : l.kind with
  | typeName =>
    have hproper := Label.isProper_of_isLegible h (by simp [hk])
    obtain ⟨c, w, hcons, hopen⟩ := Label.key_cons hproper none
    have hrender : (l.render none).toList = c :: w := by simpa only [Label.key, hk] using hcons
    have hread := readType_plain h hk hx
    rw [hk] at hopen
    refine ⟨c, w, hrender, hopen, ?_⟩
    rw [read_type hopen, ← List.cons_append, ← hrender]
    simpa only [Label.render, hk] using hread
  | className =>
    have hread := readNamed_plain h (by simp [hk]) hx
    exact ⟨'.', l.name.toList, by simp [Label.render, hk], rfl, by rwa [hk] at hread⟩
  | id =>
    have hread := readNamed_plain h (by simp [hk]) hx
    exact ⟨'#', l.name.toList, by simp [Label.render, hk], rfl, by rwa [hk] at hread⟩
  | placeholder =>
    have hread := readNamed_plain h (by simp [hk]) hx
    exact ⟨'%', l.name.toList, by simp [Label.render, hk], rfl, by rwa [hk] at hread⟩
  | attr =>
    refine ⟨'[', _, l.render_attr hk, rfl, ?_⟩
    rw [List.append_assoc, List.append_assoc]
    exact readAttribute_append h hk x
  | pseudo =>
    refine ⟨':', _, l.render_pseudo hk none, rfl, ?_⟩
    rw [List.append_assoc, List.append_assoc]
    exact readPseudo_plain h hk hx

theorem Label.kind_of_isLegible (h : l.isLegible true) : l.kind = .pseudo := by
  by_contra hk
  have hproper := isProper_of_isLegible h hk
  unfold isProper at hproper
  split at hproper
  case h_3 hpseudo => exact hk hpseudo
  all_goals simp only [Bool.not_true, Bool.and_false, Bool.false_and, Bool.false_eq_true] at hproper

/-- A pseudo selector with a selector argument begins with one token, up to the argument. -/
theorem read_opening (h : l.isLegible true) (text : String) : ∃ w,
    (l.render (some text)).toList = ':' :: (w ++ (text.toList ++ [')'])) ∧
      ∀ x, Token.read ':' (w ++ x) = .ok (.opening l, x) := by
  have hk := Label.kind_of_isLegible h
  obtain ⟨hself, hname, hfits⟩ := Label.isLegible_pseudo h hk
  refine ⟨(if l.element then [':'] else []) ++ (l.name.toList ++
    '(' :: (l.argument.toList ++ if l.argument = "" then [] else ofWord)), ?_, fun x => ?_⟩
  · rw [Label.render_pseudo hk, Label.parenthesized]
    by_cases harg : l.argument = "" <;> simp [harg, ofWord]
  · have hread := readArgument_nested hfits x
    rw [l.withoutArgument_eq hself] at hread
    simp only [List.append_assoc, List.cons_append]
    rw [← hread]
    exact readPseudo_append hname _ (endsWord_cons rfl)

/-- Skipped characters only move the position. -/
theorem Token.scan_append (w x : List Char) (position : Nat) :
    scan position w.length (w ++ x) = scan (position + byteLength w) 0 x := by
  induction w generalizing position with
  | nil => rfl
  | cons c w ih =>
    have hlength : position + byteLength (c :: w) = position + c.utf8Size + byteLength w :=
      (Nat.add_assoc ..).symm
    rw [hlength]
    exact ih (position + c.utf8Size)

end SelectorCalculus
