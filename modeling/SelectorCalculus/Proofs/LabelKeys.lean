import SelectorCalculus.Proofs.ReadableTexts
import SelectorCalculus.Proofs.SharedKeys
import SelectorCalculus.Selector.Token
/-! Keys of simple selectors, apart from what stands in their selector arguments. -/

namespace SelectorCalculus

open Text

/-! ### Proper and clear labels -/

/-- The comparisons of attribute tests. -/
def comparisons : List String := ["=", "~=", "|=", "^=", "$=", "*="]

/-- Whether the fields that matter for the kind are of their form and the others are not set. -/
def Label.isProper (l : Label) (hasSelector : Bool) : Bool :=
  match l.kind with
  | .typeName =>
    l = { kind := .typeName, name := l.name, ns := l.ns } && !hasSelector &&
      isNameOrStar l.name.toList && (l.ns = "" || isNameOrStar l.ns.toList)
  | .attr =>
    l = { l with element := false, argument := "" } && !hasSelector && isName l.name.toList &&
      (l.ns = "" || isNameOrStar l.ns.toList) &&
      if l.op = "" then l.value = "" && l.modifier = "" else comparisons.contains l.op
  | .pseudo =>
    l = { kind := .pseudo, name := l.name, element := l.element, argument := l.argument } &&
      isName l.name.toList &&
      if Token.listPseudos.contains (fold l.name) then hasSelector && l.argument = ""
      else !hasSelector && l.argument.toList.all fun c => c ≠ '(' && c ≠ ')'
  | _ => l = { kind := l.kind, name := l.name } && !hasSelector && isName l.name.toList

/-- Whether the modifier of an attribute test is set off on both sides: it holds no closing bracket,
and the value does not end with an escape that takes the blank between them. -/
def Label.isClear (l : Label) : Bool :=
  l.modifier = "" || (l.modifier.toList.all (· ≠ ']') &&
    !(Identifier.isIdentifier l.value && Identifier.isIdentifier (l.value.push ' ')))

/-! ### Names with a namespace -/

/-- What can follow a name: no character of a name and no bar that a name follows. -/
def EndsName (name : String) (x : List Char) : Prop :=
  (isName name.toList → ∀ c ∈ x.head?, ¬ Identifier.isBody c) ∧
    ∀ cs u, isNameOrStar cs → x ≠ '|' :: (cs ++ u)

theorem toList_namespaced {ns : String} (h : ns ≠ "") (name : String) (x : List Char) :
    (namespaced ns name).toList ++ x = ns.toList ++ '|' :: (name.toList ++ x) := by
  simp [namespaced, h]

theorem namespaced_append_inj {ns name ns' name' : String} {x y : List Char}
    (hns : ns = "" ∨ isNameOrStar ns.toList) (hname : isNameOrStar name.toList)
    (hns' : ns' = "" ∨ isNameOrStar ns'.toList) (hname' : isNameOrStar name'.toList)
    (hx : EndsName name x) (hy : EndsName name' y)
    (h : (namespaced ns name).toList ++ x = (namespaced ns' name').toList ++ y) :
    (name = name' ∧ ns = ns') ∧ x = y := by
  have hbar {cs : List Char} (u : List Char) (_ : isName cs) :
      ∀ c ∈ ('|' :: u).head?, ¬ Identifier.isBody c := by
    simp only [List.head?_cons, Option.mem_some_iff, forall_eq']
    exact Bool.false_ne_true
  by_cases hempty : ns = "" <;> by_cases hempty' : ns' = ""
  · rw [hempty, hempty'] at h
    obtain ⟨hnames, hxy⟩ := isNameOrStar_append_inj hname hname' hx.1 hy.1 h
    exact ⟨⟨String.toList_inj.1 hnames, by rw [hempty, hempty']⟩, hxy⟩
  · rw [hempty, toList_namespaced hempty'] at h
    have hrest := isNameOrStar_append_inj hname (hns'.resolve_left hempty') hx.1 (hbar _) h
    exact absurd hrest.2 (hx.2 _ _ hname')
  · rw [hempty', toList_namespaced hempty] at h
    have hrest := isNameOrStar_append_inj (hns.resolve_left hempty) hname' (hbar _) hy.1 h
    exact absurd hrest.2.symm (hy.2 _ _ hname)
  · rw [toList_namespaced hempty, toList_namespaced hempty'] at h
    obtain ⟨hspaces, hrest⟩ := isNameOrStar_append_inj (hns.resolve_left hempty)
      (hns'.resolve_left hempty') (hbar _) (hbar _) h
    obtain ⟨hnames, hxy⟩ :=
      isNameOrStar_append_inj hname hname' hx.1 hy.1 (List.cons.inj hrest).2
    exact ⟨⟨String.toList_inj.1 hnames, String.toList_inj.1 hspaces⟩, hxy⟩

/-! ### Attribute tests -/

theorem comparisons_append_inj {op op' : String} (h : op ∈ comparisons) (h' : op' ∈ comparisons)
    {x y : List Char} (heq : op.toList ++ x = op'.toList ++ y) : op = op' ∧ x = y := by
  simp only [comparisons, List.mem_cons, List.not_mem_nil, or_false] at h h'
  rcases h with rfl | rfl | rfl | rfl | rfl | rfl <;>
    rcases h' with rfl | rfl | rfl | rfl | rfl | rfl <;> simp_all

theorem comparisons_cons : ∀ op ∈ comparisons, ∃ c r, op.toList = c :: r ∧ c ≠ ']' ∧
    ¬ Identifier.isBody c ∧ (c = '|' → r = ['=']) := by
  simp only [comparisons, List.forall_mem_cons, List.not_mem_nil, false_implies, implies_true,
    and_true]
  exact ⟨⟨'=', [], by decide⟩, ⟨'~', ['='], by decide⟩, ⟨'|', ['='], by decide⟩,
    ⟨'^', ['='], by decide⟩, ⟨'$', ['='], by decide⟩, ⟨'*', ['='], by decide⟩⟩

namespace Label

variable {l m : Label} {x y : List Char}

/-- The modifier of an attribute test with the blank before it. -/
def modifierText (l : Label) : List Char :=
  if l.modifier = "" then [] else ' ' :: l.modifier.toList

/-- What an attribute test asks of its attribute. -/
def comparison (l : Label) : List Char :=
  if l.op = "" then []
  else l.op.toList ++ ((attributeValue l.value).toList ++ l.modifierText)

theorem key_attr (h : l.kind = .attr) (selector : Option String) : (l.key selector).toList =
    '[' :: ((namespaced l.ns l.name).toList ++ (l.comparison ++ [']'])) := by
  simp only [key, render, h, comparison, modifierText]
  split_ifs <;> simp_all

theorem endsValue (h : l.isClear) (x : List Char) :
    EndsValue l.value (l.modifierText ++ ']' :: x) := by
  unfold modifierText
  split_ifs with hm
  · exact Or.inl rfl
  · refine Or.inr ⟨rfl, fun hopen => ?_⟩
    simp [isClear, hm, hopen] at h

theorem modifierText_append_inj (hl : l.isClear) (hm : m.isClear)
    (h : l.modifierText ++ ']' :: x = m.modifierText ++ ']' :: y) :
    l.modifier = m.modifier ∧ x = y := by
  have hclosed {l : Label} (hl : l.isClear) (hne : l.modifier ≠ "") :
      ∀ c ∈ l.modifier.toList, (c != ']') = true := by
    simp only [isClear, hne, decide_false, Bool.false_or, Bool.and_eq_true, List.all_eq_true] at hl
    simpa using hl.1
  have hbracket (u : List Char) : ∀ c ∈ (']' :: u).head?, ¬ (c != ']') = true := by simp
  unfold modifierText at h
  split_ifs at h with hle hme hme
  · exact ⟨by rw [hle, hme], (List.cons.inj h).2⟩
  · exact absurd (List.cons.inj h).1 (by decide)
  · exact absurd (List.cons.inj h).1 (by decide)
  · obtain ⟨hmod, hrest⟩ := append_inj_of_all (hclosed hl hle) (hclosed hm hme) (hbracket x)
      (hbracket y) (List.cons.inj h).2
    exact ⟨String.toList_inj.1 hmod, (List.cons.inj hrest).2⟩

theorem comparison_append_inj (hl : l.op ≠ "" → l.op ∈ comparisons)
    (hm : m.op ≠ "" → m.op ∈ comparisons) (hlc : l.isClear) (hmc : m.isClear)
    (h : l.comparison ++ ']' :: x = m.comparison ++ ']' :: y) :
    l.op = m.op ∧ (l.op ≠ "" → l.value = m.value ∧ l.modifier = m.modifier) ∧ x = y := by
  have hfirst {op : String} (hop : op ∈ comparisons) (u v : List Char) :
      ']' :: u ≠ op.toList ++ v := by
    obtain ⟨c, r, hc, hne, -⟩ := comparisons_cons op hop
    rw [hc]
    exact fun heq => hne (List.cons.inj heq).1.symm
  unfold comparison at h
  split_ifs at h with hle hme hme
  · exact ⟨by rw [hle, hme], fun hne => absurd hle hne, (List.cons.inj h).2⟩
  · rw [List.append_assoc] at h
    exact absurd h (hfirst (hm hme) _ _)
  · rw [List.append_assoc] at h
    exact absurd h.symm (hfirst (hl hle) _ _)
  · simp only [List.append_assoc] at h
    obtain ⟨hop, hrest⟩ := comparisons_append_inj (hl hle) (hm hme) h
    obtain ⟨hvalue, hrest⟩ :=
      attributeValue_append_inj (endsValue hlc x) (endsValue hmc y) hrest
    obtain ⟨hmodifier, hxy⟩ := modifierText_append_inj hlc hmc hrest
    exact ⟨hop, fun _ => ⟨hvalue, hmodifier⟩, hxy⟩

theorem endsName_comparison (hl : l.op ≠ "" → l.op ∈ comparisons) (x : List Char) :
    EndsName l.name (l.comparison ++ ']' :: x) := by
  unfold comparison
  split_ifs with hle
  · exact ⟨fun _ => by simp; decide, by simp⟩
  · obtain ⟨c, r, hc, -, hbody, hbar⟩ := comparisons_cons l.op (hl hle)
    rw [hc]
    refine ⟨fun _ => by simp [hbody], fun cs u hcs heq => ?_⟩
    simp only [List.cons_append, List.append_assoc, List.cons.injEq] at heq
    obtain ⟨hc', hrest⟩ := heq
    rw [hbar hc'] at hrest
    cases cs with
    | nil => exact absurd hcs (by decide)
    | cons d cs =>
      obtain ⟨rfl, -⟩ := List.cons.inj hrest
      have hname : isName ('=' :: cs) := by simpa [isNameOrStar] using hcs
      exact absurd (isName_cons hname) (by decide)

end Label

/-! ### Simple selectors -/

/-- Whether a key of some kind can begin with a character. -/
def Kind.opens : Kind → Char → Bool
  | .typeName, c => c = '*' || Identifier.isBody c
  | .className, c => c = '.'
  | .id, c => c = '#'
  | .attr, c => c = '['
  | .pseudo, c => c = ':'
  | .placeholder, c => c = '%'

theorem Kind.opens_inj {k k' : Kind} {c : Char} (h : k.opens c) (h' : k'.opens c) : k = k' := by
  have hmark : ∀ d ∈ ['.', '#', '[', ':', '%'], !(d = '*' || Identifier.isBody d) :=
    List.all_eq_true.1 (by decide)
  cases k <;> cases k' <;> simp_all [opens]

theorem isNameOrStar_cons {cs : List Char} (h : isNameOrStar cs) :
    ∃ c u, cs = c :: u ∧ Kind.typeName.opens c := by
  simp only [isNameOrStar, Bool.or_eq_true, beq_iff_eq] at h
  rcases h with rfl | h
  · exact ⟨'*', [], rfl, rfl⟩
  · obtain ⟨c, u, rfl⟩ := List.exists_cons_of_ne_nil (isName_iff.1 h).1
    exact ⟨c, u, rfl, by simp [Kind.opens, isName_cons h]⟩

/-- What can follow a key: no bar, no parenthesis, and no name behind a name. -/
def EndsKey (k x : List Char) : Prop :=
  (∀ c ∈ x.head?, c ≠ '|' ∧ c ≠ '(') ∧
    ∀ c ∈ k.getLast?, Identifier.isBody c → ∀ d ∈ x.head?, ¬ Identifier.isBody d

theorem EndsKey.of_isName {k w x : List Char} (h : EndsKey (k ++ w) x) (hw : isName w) :
    ∀ c ∈ x.head?, ¬ Identifier.isBody c := by
  obtain ⟨hne, hall⟩ := isName_iff.1 hw
  have hlast : (k ++ w).getLast? = some (w.getLast hne) := by
    rw [List.getLast?_append_of_ne_nil _ hne, List.getLast?_eq_some_getLast hne]
  exact h.2 _ hlast (hall _ (List.getLast_mem hne))

namespace Label

variable {l m : Label} {x y : List Char} {selector selector' : Option String}

theorem isName_of_isProper {b : Bool} (h : l.isProper b) (hk : l.kind ≠ .typeName) :
    isName l.name.toList := by
  unfold isProper at h
  cases hl : l.kind <;> simp only [hl, Bool.and_eq_true] at h
  case typeName => exact absurd hl hk
  case attr => exact h.1.1.2
  case pseudo => exact h.1.2
  all_goals exact h.2

theorem isProper_type {b : Bool} (h : l.isProper b) (hk : l.kind = .typeName) :
    isNameOrStar l.name.toList ∧ (l.ns = "" ∨ isNameOrStar l.ns.toList) := by
  simp only [isProper, hk, Bool.and_eq_true, Bool.or_eq_true, decide_eq_true_eq] at h
  exact ⟨h.1.2, h.2⟩

theorem isProper_attr {b : Bool} (h : l.isProper b) (hk : l.kind = .attr) :
    (l.ns = "" ∨ isNameOrStar l.ns.toList) ∧ (l.op ≠ "" → l.op ∈ comparisons) ∧
      (l.op = "" → l.value = "" ∧ l.modifier = "") := by
  simp only [isProper, hk, Bool.and_eq_true, Bool.or_eq_true, decide_eq_true_eq] at h
  refine ⟨h.1.2, fun hop => ?_, fun hop => ?_⟩
  · simpa [hop] using h.2
  · simpa [hop] using h.2

theorem isProper_pseudo {b : Bool} (h : l.isProper b) (hk : l.kind = .pseudo) :
    (b = Token.listPseudos.contains (fold l.name)) ∧ (b → l.argument = "") ∧
      ∀ c ∈ l.argument.toList, c ≠ '(' ∧ c ≠ ')' := by
  simp only [isProper, hk, Bool.and_eq_true] at h
  have harg := h.2
  split_ifs at harg with hlist
  · simp only [Bool.and_eq_true, decide_eq_true_eq] at harg
    obtain ⟨rfl, hempty⟩ := harg
    exact ⟨hlist.symm, fun _ => hempty, by simp [hempty]⟩
  · simp only [Bool.and_eq_true, Bool.not_eq_true', List.all_eq_true, decide_eq_true_eq] at harg
    obtain ⟨rfl, hplain⟩ := harg
    exact ⟨(Bool.eq_false_iff.2 hlist).symm, Bool.false_ne_true.elim, hplain⟩

theorem key_pseudo (h : l.kind = .pseudo) (selector : Option String) : (l.key selector).toList =
    l.colons.toList ++ ((fold l.name).toList ++ (l.parenthesized selector).toList) := by
  simp only [key, h, String.toList_append, List.append_assoc]

theorem key_cons {b : Bool} (h : l.isProper b) (selector : Option String) :
    ∃ c u, (l.key selector).toList = c :: u ∧ l.kind.opens c := by
  cases hk : l.kind with
  | typeName =>
    obtain ⟨hname, hns⟩ := isProper_type h hk
    by_cases hempty : l.ns = ""
    · obtain ⟨c, u, hc, hopen⟩ := isNameOrStar_cons hname
      exact ⟨c, u, by simpa [key, render, hk, namespaced, hempty] using hc, hopen⟩
    · obtain ⟨c, u, hc, hopen⟩ := isNameOrStar_cons (hns.resolve_left hempty)
      exact ⟨c, u ++ '|' :: l.name.toList, by simp [key, render, hk, namespaced, hempty, hc], hopen⟩
  | className => exact ⟨'.', l.name.toList, by simp [key, render, hk], rfl⟩
  | id => exact ⟨'#', l.name.toList, by simp [key, render, hk], rfl⟩
  | placeholder => exact ⟨'%', l.name.toList, by simp [key, render, hk], rfl⟩
  | attr => exact ⟨'[', _, key_attr hk selector, rfl⟩
  | pseudo =>
    rw [key_pseudo hk, colons]
    split_ifs <;> exact ⟨':', _, rfl, rfl⟩

theorem parenthesized_none (h : l.argument ≠ "") (x : List Char) :
    (l.parenthesized none).toList ++ x = '(' :: (l.argument.toList ++ ')' :: x) := by
  simp [parenthesized, h]

theorem parenthesized_some (h : l.argument = "") (t : String) (x : List Char) :
    (l.parenthesized (some t)).toList ++ x = '(' :: (t.toList ++ ')' :: x) := by
  simp [parenthesized, h]

/-- What stands between parentheses can be read back, given that the selector argument can. -/
theorem parenthesized_append_inj (hl : ∀ c ∈ l.argument.toList, c ≠ '(' ∧ c ≠ ')')
    (hm : ∀ c ∈ m.argument.toList, c ≠ '(' ∧ c ≠ ')')
    (hlsel : selector.isSome → l.argument = "") (hmsel : selector'.isSome → m.argument = "")
    (hsome : selector.isSome = selector'.isSome)
    (hsel : ∀ t ∈ selector, ∀ t' ∈ selector', ∀ u v,
      t.toList ++ ')' :: u = t'.toList ++ ')' :: v → t = t' ∧ u = v)
    (hx : ∀ c ∈ x.head?, c ≠ '(') (hy : ∀ c ∈ y.head?, c ≠ '(')
    (h : (l.parenthesized selector).toList ++ x = (m.parenthesized selector').toList ++ y) :
    l.argument = m.argument ∧ selector = selector' ∧ x = y := by
  cases selector with
  | none =>
    cases selector' with
    | some t' => cases hsome
    | none =>
      by_cases hle : l.argument = "" <;> by_cases hme : m.argument = ""
      · exact ⟨by rw [hle, hme], rfl, by simpa [parenthesized, hle, hme] using h⟩
      · rw [parenthesized_none hme, parenthesized, if_pos hle] at h
        exact absurd rfl (hx '(' (by rw [show x = _ from h]; rfl))
      · rw [parenthesized_none hle, parenthesized, if_pos hme] at h
        exact absurd rfl (hy '(' (by rw [show y = _ from h.symm]; rfl))
      · rw [parenthesized_none hle, parenthesized_none hme] at h
        obtain ⟨harg, hrest⟩ := append_inj_of_all (p := (· != ')'))
          (by simpa using fun c hc => (hl c hc).2) (by simpa using fun c hc => (hm c hc).2)
          (by simp) (by simp) (List.cons.inj h).2
        exact ⟨String.toList_inj.1 harg, rfl, (List.cons.inj hrest).2⟩
  | some t =>
    cases selector' with
    | none => cases hsome
    | some t' =>
      rw [parenthesized_some (hlsel rfl), parenthesized_some (hmsel rfl)] at h
      obtain ⟨ht, hxy⟩ := hsel t rfl t' rfl x y (List.cons.inj h).2
      exact ⟨by rw [hlsel rfl, hmsel rfl], by rw [ht], hxy⟩

theorem colons_append_inj {w v : List Char} (hw : isName w) (hv : isName v)
    (h : l.colons.toList ++ (w ++ x) = m.colons.toList ++ (v ++ y)) :
    l.element = m.element ∧ w ++ x = v ++ y := by
  have hcolon {w : List Char} (hw : isName w) (x u : List Char) : w ++ x ≠ ':' :: u := by
    cases w with
    | nil => exact absurd hw (by decide)
    | cons c w =>
      intro heq
      obtain ⟨rfl, -⟩ := List.cons.inj heq
      exact absurd (isName_cons hw) (by decide)
  unfold colons at h
  cases hle : l.element <;> cases hme : m.element <;> simp only [hle, hme] at h
  · exact ⟨rfl, (List.cons.inj h).2⟩
  · exact absurd (List.cons.inj h).2 (hcolon hw _ _)
  · exact absurd (List.cons.inj h).2.symm (hcolon hv _ _)
  · exact ⟨rfl, (List.cons.inj (List.cons.inj h).2).2⟩

theorem key_type_append_inj (hl : l.isProper selector.isSome) (hm : m.isProper selector'.isSome)
    (hlk : l.kind = .typeName) (hmk : m.kind = .typeName)
    (hx : EndsKey (l.key selector).toList x) (hy : EndsKey (m.key selector').toList y)
    (h : (l.key selector).toList ++ x = (m.key selector').toList ++ y) :
    (l.name = m.name ∧ l.ns = m.ns) ∧ x = y := by
  have hends {l : Label} {selector : Option String} {x : List Char} (hlk : l.kind = .typeName)
      (hx : EndsKey (l.key selector).toList x) : EndsName l.name x := by
    refine ⟨fun hname => ?_, fun cs u _ hbar => (hx.1 '|' (by rw [hbar]; rfl)).1 rfl⟩
    by_cases hempty : l.ns = ""
    · refine EndsKey.of_isName (k := []) ?_ hname
      simpa [key, render, hlk, namespaced, hempty] using hx
    · refine EndsKey.of_isName (k := l.ns.toList ++ ['|']) ?_ hname
      simpa [key, render, hlk, namespaced, hempty] using hx
  obtain ⟨hname, hns⟩ := isProper_type hl hlk
  obtain ⟨hname', hns'⟩ := isProper_type hm hmk
  refine namespaced_append_inj hns hname hns' hname' (hends hlk hx) (hends hmk hy) ?_
  simpa only [key, render, hlk, hmk] using h

theorem key_named_append_inj {c : Char} (hl : isName l.name.toList) (hm : isName m.name.toList)
    (hlk : (l.key selector).toList = c :: l.name.toList)
    (hmk : (m.key selector').toList = c :: m.name.toList)
    (hx : EndsKey (l.key selector).toList x) (hy : EndsKey (m.key selector').toList y)
    (h : (l.key selector).toList ++ x = (m.key selector').toList ++ y) :
    l.name = m.name ∧ x = y := by
  rw [hlk] at hx h
  rw [hmk] at hy h
  obtain ⟨hname, hxy⟩ := isName_append_inj hl hm (EndsKey.of_isName (k := [c]) hx hl)
    (EndsKey.of_isName (k := [c]) hy hm) (List.cons.inj h).2
  exact ⟨String.toList_inj.1 hname, hxy⟩

theorem key_attr_append_inj (hl : l.isProper selector.isSome) (hm : m.isProper selector'.isSome)
    (hlc : l.isClear) (hmc : m.isClear) (hlk : l.kind = .attr) (hmk : m.kind = .attr)
    (h : (l.key selector).toList ++ x = (m.key selector').toList ++ y) :
    (l.name = m.name ∧ l.ns = m.ns) ∧ l.op = m.op ∧ l.value = m.value ∧
      l.modifier = m.modifier ∧ x = y := by
  obtain ⟨hns, hop, hunset⟩ := isProper_attr hl hlk
  obtain ⟨hns', hop', hunset'⟩ := isProper_attr hm hmk
  have hname : isName l.name.toList := isName_of_isProper hl (by simp [hlk])
  have hname' : isName m.name.toList := isName_of_isProper hm (by simp [hmk])
  rw [key_attr hlk, key_attr hmk] at h
  simp only [List.cons_append, List.append_assoc, List.nil_append, List.cons.injEq, true_and] at h
  obtain ⟨hnames, hrest⟩ := namespaced_append_inj hns (by simp [isNameOrStar, hname]) hns'
    (by simp [isNameOrStar, hname']) (endsName_comparison hop x) (endsName_comparison hop' y) h
  obtain ⟨hops, hvalues, hxy⟩ := comparison_append_inj hop hop' hlc hmc hrest
  by_cases hempty : l.op = ""
  · obtain ⟨hvalue, hmodifier⟩ := hunset hempty
    obtain ⟨hvalue', hmodifier'⟩ := hunset' (hops ▸ hempty)
    exact ⟨hnames, hops, by rw [hvalue, hvalue'], by rw [hmodifier, hmodifier'], hxy⟩
  · exact ⟨hnames, hops, (hvalues hempty).1, (hvalues hempty).2, hxy⟩

theorem key_pseudo_append_inj (hl : l.isProper selector.isSome) (hm : m.isProper selector'.isSome)
    (hlk : l.kind = .pseudo) (hmk : m.kind = .pseudo)
    (hsel : ∀ t ∈ selector, ∀ t' ∈ selector', ∀ u v,
      t.toList ++ ')' :: u = t'.toList ++ ')' :: v → t = t' ∧ u = v)
    (hx : EndsKey (l.key selector).toList x) (hy : EndsKey (m.key selector').toList y)
    (h : (l.key selector).toList ++ x = (m.key selector').toList ++ y) :
    l.element = m.element ∧ l.argument = m.argument ∧ fold l.name = fold m.name ∧
      selector = selector' ∧ x = y := by
  have hname {l : Label} {b : Bool} (hl : l.isProper b) (hlk : l.kind = .pseudo) :
      isName (fold l.name).toList := isName_fold (isName_of_isProper hl (by simp [hlk]))
  have hends {l : Label} {selector : Option String} {x : List Char}
      (hl : l.isProper selector.isSome) (hlk : l.kind = .pseudo)
      (hx : EndsKey (l.key selector).toList x) :
      ∀ c ∈ ((l.parenthesized selector).toList ++ x).head?, ¬ Identifier.isBody c := by
    have hparen (u : List Char) : ∀ c ∈ ('(' :: u).head?, ¬ Identifier.isBody c := by
      simp only [List.head?_cons, Option.mem_some_iff, forall_eq']
      exact Bool.false_ne_true
    cases selector with
    | some t =>
      rw [parenthesized_some ((isProper_pseudo hl hlk).2.1 rfl)]
      exact hparen _
    | none =>
      by_cases hempty : l.argument = ""
      · have hnone : l.parenthesized none = "" := by rw [parenthesized, if_pos hempty]
        rw [key_pseudo hlk, hnone, String.toList_empty, List.append_nil] at hx
        rw [hnone, String.toList_empty, List.nil_append]
        exact hx.of_isName (hname hl hlk)
      · rw [parenthesized_none hempty]
        exact hparen _
  obtain ⟨hlist, hempty, hplain⟩ := isProper_pseudo hl hlk
  obtain ⟨hlist', hempty', hplain'⟩ := isProper_pseudo hm hmk
  have hlends := hends hl hlk hx
  have hmends := hends hm hmk hy
  rw [key_pseudo hlk, key_pseudo hmk, List.append_assoc, List.append_assoc, List.append_assoc,
    List.append_assoc] at h
  obtain ⟨helement, h⟩ := colons_append_inj (hname hl hlk) (hname hm hmk) h
  obtain ⟨hnames, h⟩ := isName_append_inj (hname hl hlk) (hname hm hmk) hlends hmends h
  have hnames := String.toList_inj.1 hnames
  obtain ⟨hargument, hselector, hxy⟩ := parenthesized_append_inj hplain hplain' hempty hempty'
    (by rw [hlist, hlist', hnames]) hsel (fun c hc => (hx.1 c hc).2) (fun c hc => (hy.1 c hc).2) h
  exact ⟨helement, hargument, hnames, hselector, hxy⟩

/-- Proper and clear labels can be read back from their keys. -/
theorem key_append_inj (hl : l.isProper selector.isSome) (hm : m.isProper selector'.isSome)
    (hlc : l.isClear) (hmc : m.isClear)
    (hsel : ∀ t ∈ selector, ∀ t' ∈ selector', ∀ u v,
      t.toList ++ ')' :: u = t'.toList ++ ')' :: v → t = t' ∧ u = v)
    (hx : EndsKey (l.key selector).toList x) (hy : EndsKey (m.key selector').toList y)
    (h : (l.key selector).toList ++ x = (m.key selector').toList ++ y) :
    l.alike m ∧ (l.kind = .pseudo → selector = selector') ∧ x = y := by
  have hkind : l.kind = m.kind := by
    obtain ⟨c, u, hc, hopen⟩ := key_cons hl selector
    obtain ⟨d, v, hd, hopen'⟩ := key_cons hm selector'
    rw [hc, hd] at h
    exact Kind.opens_inj hopen ((List.cons.inj h).1 ▸ hopen')
  cases hk : l.kind with
  | typeName =>
    obtain ⟨hname, hxy⟩ := key_type_append_inj hl hm hk (hkind ▸ hk) hx hy h
    exact ⟨by simp [alike, ← hkind, hk, hname], by simp, hxy⟩
  | attr =>
    obtain ⟨hname, hop, hvalue, hmodifier, hxy⟩ :=
      key_attr_append_inj hl hm hlc hmc hk (hkind ▸ hk) h
    exact ⟨by simp [alike, ← hkind, hk, hname, hop, hvalue, hmodifier], by simp, hxy⟩
  | pseudo =>
    obtain ⟨helement, hargument, hname, hselector, hxy⟩ :=
      key_pseudo_append_inj hl hm hk (hkind ▸ hk) hsel hx hy h
    exact ⟨by simp [alike, ← hkind, hk, hname, helement, hargument], fun _ => hselector, hxy⟩
  | _ =>
    obtain ⟨hname, hxy⟩ := key_named_append_inj (isName_of_isProper hl (by simp [hk]))
      (isName_of_isProper hm (by simp [← hkind, hk])) (by simp [key, render, hk]; rfl)
      (by simp [key, render, ← hkind, hk]) hx hy h
    exact ⟨by simp [alike, ← hkind, hk, hname], by simp, hxy⟩

end Label

end SelectorCalculus
