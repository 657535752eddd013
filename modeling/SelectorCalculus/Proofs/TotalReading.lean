import SelectorCalculus.Proofs.EveryDepth
import SelectorCalculus.Proofs.TokenReading
import SelectorCalculus.Selector.Bytes
/-! Reading answers on all bytes: with a filled list, with a position among the bytes, or with an
operator that runs away. -/

namespace SelectorCalculus

open Text Token

/-! ### What a single token can come to -/

/-- A way of reading `cs` ends well: a result is as promised, a text left over by an error is the
end of `cs`, and an operator runs away only under the given condition. -/
def Meets {β : Type} (cs : List Char) (done : β → Prop) (runs : Prop) : Except Stop β → Prop
  | .ok b => done b
  | .error (.broken _ rest) => rest <:+ cs
  | .error .runaway => runs

namespace Meets

variable {β γ : Type} {cs : List Char} {done : β → Prop} {runs : Prop}

theorem bind {done' : γ → Prop} {x : Except Stop β} {f : β → Except Stop γ}
    (hx : Meets cs done runs x) (hf : ∀ b, done b → Meets cs done' runs (f b)) :
    Meets cs done' runs (x >>= f) :=
  match x with
  | .ok b => hf b hx
  | .error (.broken _ _) => hx
  | .error .runaway => hx

theorem mono {ds : List Char} {done' : β → Prop} {runs' : Prop} {x : Except Stop β}
    (hx : Meets cs done runs x) (hcs : cs <:+ ds) (hdone : ∀ b, done b → done' b)
    (hruns : runs → runs') : Meets ds done' runs' x :=
  match x with
  | .ok b => hdone b hx
  | .error (.broken _ _) => hx.trans hcs
  | .error .runaway => hruns hx

end Meets

section Readers

variable {cs : List Char}

theorem skipSpace_suffix (cs : List Char) : skipSpace cs <:+ cs := List.dropWhile_suffix _

theorem span_suffix {p : Char → Bool} {w rest : List Char} (h : cs.span p = (w, rest)) :
    cs = w ++ rest ∧ (∀ c ∈ w, p c) ∧ ∀ c ∈ rest.head?, ¬ p c := by
  rw [List.span_eq_takeWhile_dropWhile, Prod.mk.injEq] at h
  obtain ⟨rfl, rfl⟩ := h
  refine ⟨(List.takeWhile_append_dropWhile).symm, List.all_eq_true.1 List.all_takeWhile,
    fun c hc => ?_⟩
  have := List.head?_dropWhile_not p cs
  rw [Option.mem_def.1 hc] at this
  simpa using this

theorem readName_meets (cs : List Char) :
    Meets cs (fun r => ∃ w, isName w ∧ cs = w ++ r.2 ∧ EndsWord r.2) False (readName cs) := by
  unfold readName
  split
  · exact List.suffix_rfl
  · next w rest hne hspan =>
    obtain ⟨happend, hall, hends⟩ := span_suffix hspan
    refine ⟨w, isName_iff.2 ⟨hne, fun c hc => ?_⟩, happend, fun c hc => ?_⟩
    · exact isNameChar_eq c ▸ hall c hc
    · exact isNameChar_eq c ▸ hends c hc

theorem readName_suffix (cs : List Char) : Meets cs (·.2 <:+ cs) False (readName cs) := by
  refine (readName_meets cs).mono List.suffix_rfl ?_ id
  rintro r ⟨w, -, h, -⟩
  exact h ▸ List.suffix_append w r.2

theorem readNameOrStar_suffix (cs : List Char) :
    Meets cs (·.2 <:+ cs) False (readNameOrStar cs) := by
  unfold readNameOrStar
  split
  · exact List.suffix_cons _ _
  · exact List.suffix_rfl
  · exact readName_suffix cs

/-- At the start of a text, a name or an asterisk is taken off it, or a bar is left where it is. -/
theorem readNameOrStar_meets (c : Char) (cs : List Char) :
    Meets (c :: cs) (fun r => r.2 <:+ cs ∨ r.2 = '|' :: cs) False (readNameOrStar (c :: cs)) := by
  unfold readNameOrStar
  split
  · next heq => exact .inl ((List.cons.inj heq).2 ▸ List.suffix_rfl)
  · next heq => exact .inr ((List.cons.inj heq).2 ▸ rfl)
  · refine (readName_meets (c :: cs)).mono List.suffix_rfl ?_ id
    rintro r ⟨w, hw, happend, -⟩
    cases w with
    | nil => cases hw
    | cons d w =>
      rw [List.cons_append, List.cons.injEq] at happend
      exact .inl (happend.2 ▸ List.suffix_append w r.2)

/-- A token as the readers make it: selector arguments come later, and only to pseudo selectors. -/
def Token.IsPlain : Token → Prop
  | .simple s => s.selector = none
  | .opening l => l.kind = .pseudo
  | _ => True

/-- The token is plain, and what is left behind it is the end of the text. -/
structure Leaves (cs : List Char) (r : Token × List Char) : Prop where
  plain : r.1.IsPlain
  suffix : r.2 <:+ cs

theorem Leaves.mono {cs ds : List Char} {r : Token × List Char} (h : Leaves cs r)
    (hcs : cs <:+ ds) : Leaves ds r := ⟨h.plain, h.suffix.trans hcs⟩

theorem readType_leaves (c : Char) (cs : List Char) :
    Meets (c :: cs) (Leaves cs) False (readType (c :: cs)) := by
  refine (readNameOrStar_meets c cs).bind ?_
  rintro ⟨first, rest⟩ hrest
  dsimp only at hrest ⊢
  split
  · next rest =>
    have hrest : rest <:+ cs := by
      rcases hrest with hrest | hrest
      · exact (List.suffix_cons _ _).trans hrest
      · exact (List.cons.inj hrest).2 ▸ List.suffix_rfl
    refine ((readNameOrStar_suffix rest).mono (hrest.trans (List.suffix_cons _ _))
      (fun _ h => h.trans hrest) id).bind ?_
    exact fun _ h => ⟨rfl, h⟩
  · next hbar =>
    rcases hrest with hrest | hrest
    · exact ⟨rfl, hrest⟩
    · exact absurd hrest (hbar cs)

theorem readNamed_leaves (kind : Kind) (cs : List Char) :
    Meets cs (Leaves cs) False (readNamed kind cs) :=
  (readName_suffix cs).bind fun _ h => ⟨rfl, h⟩

/-! ### Attribute tests -/

/-- A name, or two with a bar between them. -/
def IsAttributeName (w : List Char) : Prop :=
  isName w ∨ ∃ ns name, isName ns ∧ isName name ∧ w = ns ++ '|' :: name

theorem readAttributeName_meets (cs : List Char) : Meets cs
    (fun r => ∃ w, IsAttributeName w ∧ cs = w ++ r.2.2 ∧ EndsWord r.2.2) False
    (readAttributeName cs) := by
  refine (readName_meets cs).bind ?_
  rintro ⟨first, rest⟩ ⟨w, hw, rfl, hends⟩
  dsimp only at hends ⊢
  split
  · next c more =>
    split
    · exact ⟨w, .inl hw, rfl, hends⟩
    · have hsuffix : c :: more <:+ w ++ '|' :: c :: more :=
        (List.suffix_cons _ _).trans (List.suffix_append _ _)
      refine ((readName_meets (c :: more)).mono hsuffix (fun _ h => h) id).bind ?_
      rintro ⟨name, rest⟩ ⟨v, hv, happend, hends⟩
      exact ⟨w ++ '|' :: v, .inr ⟨w, v, hw, hv, rfl⟩, by simp [happend], hends⟩
  · exact ⟨w, .inl hw, rfl, hends⟩

theorem readString_suffix (quote : Char) (cs : List Char) :
    Meets cs (·.2 <:+ cs) False (readString quote cs) := by
  unfold readString
  split
  · exact List.suffix_rfl
  · next hspan =>
    rw [(span_suffix hspan).1]
    exact (List.suffix_cons _ _).trans (List.suffix_append _ _)

theorem readValue_suffix (cs : List Char) : Meets cs (·.2 <:+ cs) False (readValue cs) := by
  unfold readValue
  split
  · next c rest =>
    split
    · exact (readString_suffix c rest).mono (List.suffix_cons _ _)
        (fun _ h => h.trans (List.suffix_cons _ _)) id
    · exact readName_suffix _
  · exact readName_suffix _

theorem readModifier_suffix (cs : List Char) :
    Meets cs (·.2 <:+ cs) False (readModifier cs) := by
  unfold readModifier
  split
  · next c rest =>
    dsimp only
    split
    · refine ((readName_suffix _).mono (skipSpace_suffix _) (fun _ h => h) id).bind ?_
      rintro ⟨modifier, rest⟩ h
      exact (skipSpace_suffix _).trans (h.trans (skipSpace_suffix _))
    · exact skipSpace_suffix _
  · exact List.suffix_rfl

theorem closeBracket_leaves (l : Label) (cs : List Char) :
    Meets cs (Leaves cs) False (closeBracket l cs) := by
  unfold closeBracket
  split
  · exact ⟨rfl, List.suffix_cons _ _⟩
  · exact List.suffix_rfl

/-- After blanks stands an attribute name, and no equals sign is left behind it. -/
def LacksSign (cs : List Char) : Prop :=
  ∃ blanks name rest, (∀ c ∈ blanks, isSpace c) ∧ IsAttributeName name ∧ EndsWord rest ∧
    '=' ∉ rest ∧ cs = blanks ++ name ++ rest

theorem not_mem_of_skipSpace {cs : List Char} (h : '=' ∉ skipSpace cs) : '=' ∉ cs := by
  intro hmem
  rw [← List.takeWhile_append_dropWhile (p := isSpace) (l := cs), List.mem_append] at hmem
  rcases hmem with hmem | hmem
  · exact absurd (List.all_eq_true.1 List.all_takeWhile _ hmem) (by decide)
  · exact h hmem

theorem readAttribute_leaves (cs : List Char) :
    Meets cs (Leaves cs) (LacksSign cs) (readAttribute cs) := by
  refine ((readAttributeName_meets _).mono (skipSpace_suffix cs) (fun _ h => h) False.elim).bind ?_
  rintro ⟨ns, name, rest⟩ ⟨w, hw, happend, hends⟩
  have hrest : skipSpace rest <:+ cs := calc
    skipSpace rest <:+ rest := skipSpace_suffix rest
    _ <:+ skipSpace cs := happend ▸ List.suffix_append w rest
    _ <:+ cs := skipSpace_suffix cs
  dsimp only at hends ⊢
  split
  · next heq => exact ⟨rfl, (List.suffix_cons _ _).trans (heq ▸ hrest)⟩
  · split
    · next hspan =>
      obtain ⟨hall, hsign, -⟩ := span_suffix hspan
      rw [List.append_nil] at hall
      refine ⟨cs.takeWhile isSpace, w, rest, List.all_eq_true.1 List.all_takeWhile, hw, hends,
        not_mem_of_skipSpace fun hmem => ?_, ?_⟩
      · exact absurd (hsign '=' (hall ▸ hmem)) (by decide)
      · rw [List.append_assoc, ← happend]
        exact List.takeWhile_append_dropWhile.symm
    · next op sign more hspan =>
      have hmore : skipSpace more <:+ cs := calc
        skipSpace more <:+ more := skipSpace_suffix more
        _ <:+ sign :: more := List.suffix_cons _ _
        _ <:+ skipSpace rest := (span_suffix hspan).1 ▸ List.suffix_append _ _
        _ <:+ cs := hrest
      refine ((readValue_suffix _).mono hmore (fun _ h => h.trans hmore) False.elim).bind ?_
      rintro ⟨value, rest⟩ hrest
      refine ((readModifier_suffix _).mono hrest (fun _ h => h.trans hrest) False.elim).bind ?_
      rintro ⟨modifier, rest⟩ hrest
      exact (closeBracket_leaves _ _).mono hrest (fun _ h => h.mono hrest) False.elim

/-! ### Pseudo selectors -/

theorem splitFormula_suffix (cs : List Char) : (splitFormula cs).2 <:+ cs := by
  fun_induction splitFormula cs with
  | case1 => exact List.suffix_rfl
  | case2 c cs => exact List.suffix_rfl
  | case3 c cs _ formula rest heq ih =>
    rw [heq] at ih
    exact ih.trans (List.suffix_cons c cs)

theorem readArgument_leaves {l : Label} (hl : l.kind = .pseudo) (cs : List Char) :
    Meets cs (Leaves cs) False (readArgument l cs) := by
  unfold readArgument
  dsimp only
  split
  · exact ⟨hl, List.suffix_rfl⟩
  · split
    · have hrest := splitFormula_suffix cs
      split
      · next heq => exact ⟨rfl, (List.suffix_cons _ _).trans (heq ▸ hrest)⟩
      · exact List.nil_suffix
      · exact ⟨hl, (List.drop_suffix _ _).trans hrest⟩
    · split
      · exact List.suffix_rfl
      · next hspan =>
        rw [(span_suffix hspan).1]
        exact ⟨rfl, (List.suffix_cons _ _).trans (List.suffix_append _ _)⟩

theorem readPseudo_leaves (cs : List Char) : Meets cs (Leaves cs) False (readPseudo cs) := by
  unfold readPseudo
  split
  next element ds heq =>
    have hds : ds <:+ cs := by
      split at heq
      · obtain ⟨-, rfl⟩ := heq
        exact List.suffix_cons _ _
      · obtain ⟨-, rfl⟩ := heq
        exact List.suffix_rfl
    refine ((readName_suffix ds).mono hds (fun _ h => h.trans hds) id).bind ?_
    rintro ⟨name, rest⟩ hrest
    dsimp only at hrest ⊢
    split
    · next rest =>
      have hrest : rest <:+ cs := (List.suffix_cons _ _).trans hrest
      exact (readArgument_leaves rfl rest).mono hrest (fun _ h => h.mono hrest) id
    · exact ⟨rfl, hrest⟩

/-- Every way of reading a token ends well, and only an attribute test can run away. -/
theorem read_leaves (c : Char) (cs : List Char) :
    Meets (c :: cs) (Leaves cs) (c = '[' ∧ LacksSign cs) (Token.read c cs) := by
  have hsuffix : cs <:+ c :: cs := List.suffix_cons _ _
  unfold Token.read
  split
  all_goals try exact ⟨trivial, List.suffix_rfl⟩
  · exact (readNamed_leaves _ cs).mono hsuffix (fun _ h => h) False.elim
  · exact (readNamed_leaves _ cs).mono hsuffix (fun _ h => h) False.elim
  · exact (readNamed_leaves _ cs).mono hsuffix (fun _ h => h) False.elim
  · exact (readAttribute_leaves cs).mono hsuffix (fun _ h => h) fun h => ⟨rfl, h⟩
  · exact (readPseudo_leaves cs).mono hsuffix (fun _ h => h) False.elim
  · split
    · exact ⟨trivial, List.suffix_rfl⟩
    · split
      · exact (readType_leaves c cs).mono List.suffix_rfl (fun _ h => h) False.elim
      · exact List.suffix_rfl

/-- What is left behind a token is the end of the text, and at least one character is gone. -/
theorem Token.read_suffix {c : Char} {token : Token} {rest : List Char}
    (h : Token.read c cs = .ok (token, rest)) : rest <:+ cs := by
  have hread := read_leaves c cs
  rw [h] at hread
  exact hread.suffix

/-- After a token the scan goes on with what is left, at the byte behind the token. -/
theorem Token.scan_of_read {c : Char} {token : Token} {rest : List Char} (hc : c.toNat ≠ 0)
    (h : Token.read c cs = .ok (token, rest)) (position : Nat) :
    ∃ w, cs = w ++ rest ∧ scan position 0 (c :: cs) =
      ((position, token) :: (scan (position + byteLength (c :: w)) 0 rest).1,
        (scan (position + byteLength (c :: w)) 0 rest).2) := by
  obtain ⟨w, rfl⟩ := read_suffix h
  refine ⟨w, rfl, ?_⟩
  rw [scan, if_neg hc, h]
  simp only [List.length_append, Nat.add_sub_cancel, scan_append, byteLength_cons, Nat.add_assoc]

end Readers

/-! ### Positions -/

/-- A position, counted from `start`, at which some beginning of `cs` ends. -/
def IsPositionIn (cs : List Char) (start position : Nat) : Prop :=
  ∃ before, before <+: cs ∧ position = start + byteLength before

/-- After some opening bracket, the operator of an attribute test runs to the end of the text. -/
def RunsAway (cs : List Char) : Prop :=
  ∃ before after, cs = before ++ '[' :: after ∧ readAttribute after = .error .runaway ∧
    LacksSign after

/-- What the end of the tokens says about the text. -/
def Ending.Fits (cs : List Char) (start : Nat) : Ending → Prop
  | .finish position _ | .broken _ position => IsPositionIn cs start position
  | .runaway => RunsAway cs

variable {cs : List Char} {start position : Nat}

theorem isPositionIn_start (cs : List Char) (start : Nat) : IsPositionIn cs start start :=
  ⟨[], List.nil_prefix, rfl⟩

theorem IsPositionIn.cons {c : Char} (h : IsPositionIn cs (start + c.utf8Size) position) :
    IsPositionIn (c :: cs) start position := by
  obtain ⟨before, hbefore, rfl⟩ := h
  exact ⟨c :: before, List.cons_prefix_cons.2 ⟨rfl, hbefore⟩,
    by rw [byteLength_cons, Nat.add_assoc]⟩

theorem isPositionIn_of_suffix {rest : List Char} (h : rest <:+ cs) :
    IsPositionIn cs start (start + byteLength cs - byteLength rest) := by
  obtain ⟨before, rfl⟩ := h
  refine ⟨before, List.prefix_append _ _, ?_⟩
  rw [byteLength_append]
  omega

theorem Ending.Fits.cons {c : Char} {ending : Ending}
    (h : ending.Fits cs (start + c.utf8Size)) : ending.Fits (c :: cs) start := by
  cases ending with
  | finish position atEnd => exact IsPositionIn.cons h
  | broken reason position => exact IsPositionIn.cons h
  | runaway =>
    obtain ⟨before, after, rfl, hsign⟩ := h
    exact ⟨c :: before, after, rfl, hsign⟩

/-- Tokens are plain and start in the text, and so does what stops them. -/
theorem scan_fits (start skip : Nat) (cs : List Char) :
    (∀ t ∈ (scan start skip cs).1, IsPositionIn cs start t.1 ∧ t.2.IsPlain) ∧
      (scan start skip cs).2.Fits cs start := by
  induction cs generalizing start skip with
  | nil => exact ⟨by simp [scan], isPositionIn_start _ _⟩
  | cons c cs ih =>
    have hlater (skip : Nat) : (∀ t ∈ (scan (start + c.utf8Size) skip cs).1,
        IsPositionIn (c :: cs) start t.1 ∧ t.2.IsPlain) ∧
          (scan (start + c.utf8Size) skip cs).2.Fits (c :: cs) start :=
      ⟨fun t ht => ((ih _ _).1 t ht).imp_left IsPositionIn.cons, (ih _ _).2.cons⟩
    cases skip with
    | succ skip => exact hlater skip
    | zero =>
      rw [scan]
      split
      · exact ⟨by simp, isPositionIn_start _ _⟩
      · have hread := read_leaves c cs
        split
        · next token rest heq =>
          rw [heq] at hread
          exact ⟨List.forall_mem_cons.2 ⟨⟨isPositionIn_start _ _, hread.plain⟩, (hlater _).1⟩,
            (hlater _).2⟩
        · next heq =>
          rw [heq] at hread
          exact ⟨by simp, isPositionIn_of_suffix hread⟩
        · next heq =>
          rw [heq] at hread
          obtain ⟨rfl, hsign⟩ := hread
          exact ⟨by simp, [], cs, rfl, heq, hsign⟩

/-! ### Filled selectors -/

/-- Selectors that leave nothing empty: a selector argument belongs to a pseudo selector and has an
alternative, a compound has a simple selector or refers to the enclosing rule, and a complex
selector has a component, at every depth. -/
def built : Interpretation Bool Bool Bool :=
  everyDepth (fun s => s.selector.all fun l => s.kind = .pseudo && !l.isEmpty)
    (fun
      | .compound c => !c.simples.isEmpty || c.parent
      | .combinator _ => true)
    fun c => !c.components.isEmpty

/-- A list with an alternative, all of them built. -/
def IsBuiltList (l : SelectorList) : Prop := l ≠ [] ∧ ∀ c ∈ l, built.ofComplex c

theorem built_of_selector_none {s : Simple} (h : s.selector = none) : built.ofSimple s := by
  rw [built, everyDepth_simple_iff]
  simp [h]

theorem built_withSelector {l : Label} (hl : l.kind = .pseudo) {list : SelectorList}
    (h : IsBuiltList list) : built.ofSimple { l with selector := some list } := by
  refine everyDepth_simple_iff.2 ⟨by simp [hl, h.1], fun _ list' hlist => ?_⟩
  exact Option.mem_some_iff.1 hlist ▸ h.2

theorem built_compound_iff {c : Compound} : built.ofComponent (.compound c) ↔
    (c.simples ≠ [] ∨ c.parent) ∧ ∀ s ∈ c.simples, built.ofSimple s := by
  rw [built, everyDepth_compound_iff]
  simp

theorem built_path_iff {cs : List Component} {b : Bool} : built.ofComplex (.path cs b) ↔
    cs ≠ [] ∧ ∀ c ∈ cs, built.ofComponent c := by
  rw [built, everyDepth_complex_iff]
  simp [Complex.components]

namespace Reader

/-- Whatever a frame holds is built. -/
structure Frame.IsBuilt (f : Frame) : Prop where
  complexes : ∀ c ∈ f.complexes, built.ofComplex c
  components : ∀ c ∈ f.components, built.ofComponent c
  current : ∀ c ∈ f.current, built.ofComponent (.compound c)

namespace Frame.IsBuilt

variable {f : Frame}

theorem empty : ({} : Frame).IsBuilt := ⟨by simp, by simp, by simp⟩

theorem simples (h : f.IsBuilt) :
    ∀ s ∈ (f.current.getD { simples := [] }).simples, built.ofSimple s := by
  cases hc : f.current with
  | none => simp
  | some c => exact (built_compound_iff.1 (h.current c hc)).2

theorem addSimple (h : f.IsBuilt) {s : Simple} (hs : built.ofSimple s) :
    (f.addSimple s).IsBuilt where
  complexes := h.complexes
  components := h.components
  current := by
    simp only [Frame.addSimple, Option.mem_some_iff, forall_eq', built_compound_iff]
    refine ⟨.inl (by simp), fun t ht => ?_⟩
    rcases List.mem_append.1 ht with ht | ht
    · exact h.simples t ht
    · exact List.mem_singleton.1 ht ▸ hs

theorem addParent (h : f.IsBuilt) : f.addParent.IsBuilt where
  complexes := h.complexes
  components := h.components
  current := by
    simp only [Frame.addParent, Option.mem_some_iff, forall_eq', built_compound_iff]
    exact ⟨.inr trivial, h.simples⟩

theorem endCompound (h : f.IsBuilt) : f.endCompound.IsBuilt := by
  unfold Frame.endCompound
  split
  · exact h
  · next c hc =>
    refine ⟨h.complexes, fun d hd => ?_, by simp⟩
    rcases List.mem_append.1 hd with hd | hd
    · exact h.components d hd
    · exact List.mem_singleton.1 hd ▸ h.current c hc

theorem addCombinator (h : f.IsBuilt) (k : Combinator) : (f.addCombinator k).IsBuilt := by
  refine ⟨h.endCompound.complexes, fun d hd => ?_, h.endCompound.current⟩
  rcases List.mem_append.1 hd with hd | hd
  · exact h.endCompound.components d hd
  · exact List.mem_singleton.1 hd ▸ rfl

theorem endComplex? (h : f.IsBuilt) {g : Frame} (hg : f.endComplex? = some g) :
    g.IsBuilt ∧ IsBuiltList g.complexes := by
  unfold Frame.endComplex? at hg
  dsimp only at hg
  split at hg
  · cases hg
  · next hne =>
    cases hg
    have hall : ∀ c ∈ f.endCompound.complexes ++ [.path f.endCompound.components false],
        built.ofComplex c := by
      intro c hc
      rcases List.mem_append.1 hc with hc | hc
      · exact h.endCompound.complexes c hc
      · rw [List.mem_singleton.1 hc, built_path_iff]
        exact ⟨by simpa using hne, h.endCompound.components⟩
    exact ⟨⟨hall, by simp, by simp⟩, by simp, hall⟩

end Frame.IsBuilt

/-- Every open list is built so far, and those around the innermost are held by pseudo selectors. -/
structure State.IsBuilt (st : State) : Prop where
  frame : st.frame.IsBuilt
  outer : ∀ p ∈ st.outer, p.1.kind = .pseudo ∧ p.2.IsBuilt

/-- A step keeps what is built, or refuses the token at its position. -/
theorem step_isBuilt {st : State} (h : st.IsBuilt) {t : Nat × Token} (ht : t.2.IsPlain) :
    (∃ st', step st t = .ok st' ∧ st'.IsBuilt) ∨ ∃ reason, step st t = .error (reason, t.1) := by
  obtain ⟨position, token⟩ := t
  cases token with
  | space => exact .inl ⟨_, rfl, h.frame.endCompound, h.outer⟩
  | combinator k => exact .inl ⟨_, rfl, h.frame.addCombinator k, h.outer⟩
  | parent => exact .inl ⟨_, rfl, h.frame.addParent, h.outer⟩
  | simple s => exact .inl ⟨_, rfl, h.frame.addSimple (built_of_selector_none ht), h.outer⟩
  | opening l =>
    exact .inl ⟨_, rfl, .empty, List.forall_mem_cons.2 ⟨⟨ht, h.frame⟩, h.outer⟩⟩
  | comma =>
    cases hf : st.frame.endComplex? with
    | none => exact .inr ⟨.emptySelector, by simp [step, hf]⟩
    | some f =>
      exact .inl ⟨{ st with frame := f }, by simp [step, hf], (h.frame.endComplex? hf).1, h.outer⟩
  | close =>
    cases hf : st.frame.endComplex? with
    | none => exact .inr ⟨.emptySelector, by simp [step, hf]⟩
    | some f =>
      cases ho : st.outer with
      | nil => exact .inr ⟨.unexpectedInput, by simp [step, hf, ho]⟩
      | cons p outer =>
        obtain ⟨⟨hkind, haround⟩, houter⟩ := List.forall_mem_cons.1 (ho ▸ h.outer)
        refine .inl ⟨_, by simp [step, hf, ho]; rfl, ?_, houter⟩
        exact haround.addSimple (built_withSelector hkind (h.frame.endComplex? hf).2)

theorem foldlM_step_isBuilt {st : State} (h : st.IsBuilt) {tokens : List (Nat × Token)}
    (hplain : ∀ t ∈ tokens, t.2.IsPlain) :
    (∃ st', tokens.foldlM step st = .ok st' ∧ st'.IsBuilt) ∨
      ∃ reason, ∃ t ∈ tokens, tokens.foldlM step st = .error (reason, t.1) := by
  induction tokens generalizing st with
  | nil => exact .inl ⟨st, rfl, h⟩
  | cons t tokens ih =>
    obtain ⟨ht, hplain⟩ := List.forall_mem_cons.1 hplain
    rw [List.foldlM_cons]
    obtain ⟨st', hstep, hst'⟩ | ⟨reason, hstep⟩ := step_isBuilt h ht
    · rw [hstep]
      obtain ⟨st'', hrun, hst''⟩ | ⟨reason, t', ht', hrun⟩ := ih hst' hplain
      · exact .inl ⟨st'', hrun, hst''⟩
      · exact .inr ⟨reason, t', List.mem_cons_of_mem _ ht', hrun⟩
    · rw [hstep]
      exact .inr ⟨reason, t, List.mem_cons_self, rfl⟩

theorem finish_isBuilt {st : State} (h : st.IsBuilt) (position : Nat) (atEnd : Bool) :
    (∃ l, finish st position atEnd = .ok l ∧ IsBuiltList l) ∨
      ∃ reason, finish st position atEnd = .error (reason, position) := by
  cases hf : st.frame.endComplex? with
  | none => exact .inr ⟨.emptySelector, by simp [finish, hf]⟩
  | some f =>
    cases ho : st.outer with
    | cons p outer => exact .inr ⟨.expectedParenthesis, by simp [finish, hf, ho]⟩
    | nil =>
      cases atEnd with
      | false => exact .inr ⟨.unexpectedInput, by simp [finish, hf, ho]⟩
      | true => exact .inl ⟨f.complexes, by simp [finish, hf, ho], (h.frame.endComplex? hf).2⟩

end Reader

/-! ### Texts and bytes -/

/-- Reading a text gives a built list, or refuses the text at a position in it, or an operator runs
away. -/
theorem readList_cases (text : String) : (∃ l, readList text = .ok l ∧ IsBuiltList l) ∨
    (∃ reason position, IsPositionIn text.toList 0 position ∧
      readList text = .error (.malformed reason position text)) ∨
    readList text = .error .runawayOperator ∧ RunsAway text.toList := by
  obtain ⟨htokens, hending⟩ := scan_fits 0 0 text.toList
  unfold readList
  generalize scan 0 0 text.toList = scanned at htokens hending ⊢
  obtain ⟨tokens, ending⟩ := scanned
  dsimp only at htokens hending ⊢
  obtain ⟨st, hrun, hst⟩ | ⟨reason, t, ht, hrun⟩ := Reader.foldlM_step_isBuilt
    (⟨.empty, by simp⟩ : ({} : Reader.State).IsBuilt) fun t ht => (htokens t ht).2
  · rw [hrun]
    cases ending with
    | finish position atEnd =>
      obtain ⟨l, hfinish, hl⟩ | ⟨reason, hfinish⟩ := Reader.finish_isBuilt hst position atEnd
      · exact .inl ⟨l, by simp [hfinish, Except.mapError], hl⟩
      · exact .inr (.inl ⟨reason, position, hending, by simp [hfinish, Except.mapError]⟩)
    | broken reason position => exact .inr (.inl ⟨reason, position, hending, rfl⟩)
    | runaway => exact .inr (.inr ⟨rfl, hending⟩)
  · rw [hrun]
    exact .inr (.inl ⟨reason, t.1, (htokens t ht).1, rfl⟩)

theorem Piece.sizeBefore_of_isPositionIn {ps : List Piece}
    (h : IsPositionIn (ps.map char) 0 position) :
    ∃ before, before <+: ps ∧ sizeBefore ps position = totalSize before := by
  obtain ⟨chars, hchars, rfl⟩ := h
  obtain ⟨before, hbefore, rfl⟩ := List.prefix_map_iff.1 hchars
  obtain ⟨after, rfl⟩ := hbefore
  rw [Nat.zero_add]
  exact ⟨before, List.prefix_append _ _, sizeBefore_append before after⟩

/-- On the encoding of a text, bytes are read as the text is. -/
theorem readList_eq_readBytes (text : String) :
    readList text = (readBytes text.toUTF8).mapError (·.error text) := by
  unfold readBytes
  dsimp only
  rw [Piece.map_char_ofBytes_toUTF8]
  obtain ⟨l, hread, -⟩ | ⟨reason, position, hposition, hread⟩ | ⟨hread, -⟩ := readList_cases text
  · rw [hread]
    rfl
  · obtain ⟨before, hbefore, rfl⟩ := hposition
    obtain ⟨after, hafter⟩ := hbefore
    have hsize : Piece.sizeBefore (Piece.ofBytes text.toUTF8) (byteLength before) =
        byteLength before := by
      have := Piece.sizeBefore_append (before.map .character) (after.map .character)
      rwa [← List.map_append, hafter, ← Piece.ofBytes_toUTF8, Piece.totalSize_map_character,
        List.map_map, show Piece.char ∘ Piece.character = id from rfl, List.map_id] at this
    rw [hread, Nat.zero_add]
    simp only [Except.mapError, hsize, ReadFault.error]
  · rw [hread]
    rfl

theorem ReadFault.message?_toUTF8 (text : String) (fault : ReadFault) :
    fault.message? text.toUTF8 = (fault.error text).message? := by
  cases fault with
  | malformed reason position =>
    rw [message?, Piece.ofBytes_toUTF8, List.flatMap_map]
    rfl
  | runawayOperator => rfl

/-- Every sequence of bytes is answered: by a list with an alternative and nothing empty at any
depth, or by a message with a position among the bytes, or by an attribute test whose operator runs
away, with no equals sign after the name of the attribute. On the bytes of a text, answers and
messages are those of reading the text. -/
theorem readBytes_total :
    (∀ bytes : ByteArray, (∃ l, readBytes bytes = .ok l ∧ IsBuiltList l) ∨
      (∃ reason position shown, readBytes bytes = .error (.malformed reason position) ∧
        position ≤ bytes.size ∧ ReadFault.message? bytes (.malformed reason position) =
          some ("selectortest: " ++ reason.message ++ " at " ++ toString position ++ " in " ++
            shown)) ∨
      readBytes bytes = .error .runawayOperator ∧
        RunsAway ((Piece.ofBytes bytes).map Piece.char)) ∧
    ∀ text : String, readList text = (readBytes text.toUTF8).mapError (·.error text) ∧
      ∀ fault : ReadFault, fault.message? text.toUTF8 = (fault.error text).message? := by
  refine ⟨fun bytes => ?_, fun text =>
    ⟨readList_eq_readBytes text, ReadFault.message?_toUTF8 text⟩⟩
  unfold readBytes
  dsimp only
  obtain ⟨l, hread, hl⟩ | ⟨reason, position, hposition, hread⟩ | ⟨hread, hruns⟩ :=
    readList_cases (String.ofList ((Piece.ofBytes bytes).map Piece.char))
  · exact .inl ⟨l, by rw [hread]; rfl, hl⟩
  · rw [String.toList_ofList] at hposition
    obtain ⟨before, hbefore, hsize⟩ := Piece.sizeBefore_of_isPositionIn hposition
    refine .inr (.inl ⟨reason, Piece.totalSize before, _, ?_, ?_, rfl⟩)
    · rw [hread]
      simp only [Except.mapError, hsize]
    · exact Piece.totalSize_ofBytes bytes ▸ Piece.totalSize_le_of_prefix hbefore
  · rw [String.toList_ofList] at hruns
    exact .inr (.inr ⟨by rw [hread]; rfl, hruns⟩)

end SelectorCalculus
