import SelectorCalculus.Proofs.KeyReading
import SelectorCalculus.Proofs.TokenReading
import SelectorCalculus.Selector.Reader
import Mathlib.Logic.Relation
/-! Every selector list that is legible at every depth is read back from its text. -/

namespace SelectorCalculus

open Text

/-! ### Legible selectors -/

/-- Selectors that can be read back from their text. No list, path or compound is empty, a compound
has a type only at its head, and the marks that are not written are not set. -/
def legible : Interpretation Bool Bool Bool where
  simple s parts :=
    s.toLabel.isLegible s.selector.isSome && !s.selector.any List.isEmpty && parts.all id
  component
    | .compound c, parts => !c.isEmpty && !c.parent && !c.extended &&
      c.simples.tail.all (·.kind ≠ .typeName) && parts.all id
    | .combinator _, _ => true
  complex
    | .path cs lineBreak, parts => !cs.isEmpty && !lineBreak && parts.all id
    | .absent, _ => false

/-- Whether a list can be read back from its text. -/
def isLegibleList (l : SelectorList) : Bool := !l.isEmpty && l.all legible.ofComplex

theorem isLegibleList_iff {l : SelectorList} :
    isLegibleList l ↔ l ≠ [] ∧ ∀ c ∈ l, legible.ofComplex c := by
  simp [isLegibleList]

theorem legible_simple_iff {s : Simple} : legible.ofSimple s ↔
    s.toLabel.isLegible s.selector.isSome ∧ ∀ l ∈ s.selector, isLegibleList l := by
  rw [Interpretation.ofSimple_eq]
  obtain ⟨l, _ | list⟩ := s <;> simp [legible, isLegibleList, and_assoc]

theorem legible_compound_iff {c : Compound} : legible.ofComponent (.compound c) ↔
    c.simples ≠ [] ∧ c = .ofSimples c.simples ∧ (∀ s ∈ c.simples.tail, s.kind ≠ .typeName) ∧
      ∀ s ∈ c.simples, legible.ofSimple s := by
  rw [Interpretation.ofComponent_compound, Interpretation.ofCompound_eq]
  obtain ⟨ss, parent, extended⟩ := c
  cases parent <;> cases extended <;>
    simp [legible, Compound.isEmpty, Compound.ofSimples, and_assoc]

theorem legible_complex_iff {c : Complex} : legible.ofComplex c ↔
    c.components ≠ [] ∧ c = .ofComponents c.components ∧
      ∀ d ∈ c.components, legible.ofComponent d := by
  rw [Interpretation.ofComplex_eq]
  cases c with
  | path cs b => cases b <;> simp [legible, Complex.components, Complex.ofComponents]
  | absent => simp [legible, Complex.components]

/-! ### Texts -/

theorem rendering_simple (s : Simple) :
    rendering.ofSimple s = s.toLabel.render (s.selector.map renderList) := by
  rw [Interpretation.ofSimple_eq]
  obtain ⟨l, _ | list⟩ := s
  · rfl
  · simp only [rendering, renderList, Option.map_some, Option.getD_some,
      Interpretation.ofList_eq_map]

theorem rendering_compound (c : Compound) : (rendering.ofComponent (.compound c)).toList =
    c.simples.flatMap fun s => (rendering.ofSimple s).toList := by
  rw [Interpretation.ofComponent_compound, Interpretation.ofCompound_eq]
  simp [rendering, List.flatMap_map]

theorem rendering_complex (c : Complex) : (rendering.ofComplex c).toList =
    [' '].intercalate (c.components.map fun d => (rendering.ofComponent d).toList) := by
  rw [Interpretation.ofComplex_eq, rendering, String.toList_intercalate, List.map_map]
  rfl

theorem renderList_toList (l : SelectorList) : (renderList l).toList =
    [',', ' '].intercalate (l.map fun c => (rendering.ofComplex c).toList) := by
  rw [renderList, Interpretation.ofList_eq_map, String.toList_intercalate, List.map_map]
  rfl

/-! ### Reading token by token -/

namespace Reader

/-- One token is taken from the text, at whatever position. -/
inductive Takes : List Char × State → List Char × State → Prop where
  | intro {c : Char} {w x : List Char} {token : Token} {st st' : State} :
      c.toNat ≠ 0 → Token.read c (w ++ x) = .ok (token, x) →
      (∀ position, step st (position, token) = .ok st') → Takes (c :: (w ++ x), st) (x, st')

/-- Tokens are taken from the text until a rest is left. -/
abbrev Reads : List Char × State → List Char × State → Prop := Relation.ReflTransGen Takes

theorem Reads.exists_scan {cs : List Char} {st st' : State} (h : Reads (cs, st) ([], st'))
    (position : Nat) : ∃ tokens position', Token.scan position 0 cs =
      (tokens, .finish position' true) ∧ tokens.foldlM step st = .ok st' := by
  generalize hp : (cs, st) = p at h
  induction h using Relation.ReflTransGen.head_induction_on generalizing cs st position with
  | refl =>
    cases hp
    exact ⟨[], position, rfl, rfl⟩
  | head htakes _ ih =>
    subst hp
    cases htakes with
    | @intro c w x token _ st'' hc hread hstep =>
    obtain ⟨tokens, position', hscan, hfold⟩ := ih (position + c.utf8Size + Token.byteLength w) rfl
    refine ⟨(position, token) :: tokens, position', ?_, ?_⟩
    · rw [Token.scan, if_neg hc, hread]
      simp only [List.length_append, Nat.add_sub_cancel, Token.scan_append, hscan]
    · rw [List.foldlM_cons, hstep]
      exact hfold

theorem readList_of_reads {text : String} {f : Frame} {l : SelectorList}
    (h : Reads (text.toList, {}) ([], { frame := f }))
    (hf : f.endComplex? = some { complexes := l }) : readList text = .ok l := by
  obtain ⟨tokens, position, hscan, hfold⟩ := h.exists_scan 0
  simp only [readList, hscan, hfold, finish, hf, if_true]
  rfl

/-! ### Simple selectors and compounds -/

variable {x : List Char} {st : State}

theorem reads_mark {c : Char} {token : Token} {st' : State} (hc : c.toNat ≠ 0)
    (hread : Token.read c x = .ok (token, x))
    (hstep : ∀ position, step st (position, token) = .ok st') : Reads (c :: x, st) (x, st') :=
  .single (.intro (w := []) hc hread hstep)

theorem endsSimple_of_opens {k : Kind} {c : Char} (hk : k ≠ .typeName) (h : k.opens c) :
    EndsSimple (c :: x) := by
  intro d hd
  cases hd
  cases k <;> simp only [Kind.opens, decide_eq_true_eq] at h
  case typeName => exact absurd rfl hk
  all_goals subst h; decide

theorem endsSimple_of_endsStep (h : EndsStep x) : EndsSimple x := by
  intro c hc
  obtain rfl | rfl | rfl := h c hc <;> decide

theorem toNat_ne_of_opens {k : Kind} {c : Char} (h : k.opens c) : c.toNat ≠ 0 := by
  intro hzero
  obtain rfl : c = Char.ofNat 0 := by rw [← hzero, Char.ofNat_toNat]
  cases k <;> exact absurd h (by decide)

/-- What is read when one simple selector is. -/
def ReadsSimple (s : Simple) : Prop := ∀ x st, EndsSimple x →
  Reads ((rendering.ofSimple s).toList ++ x, st) (x, { st with frame := st.frame.addSimple s })

/-- What is read when a list is, up to where it ends. -/
def ReadsList (l : SelectorList) : Prop := ∀ x outer, EndsPath x →
  ∃ f, f.endComplex? = some { complexes := l } ∧
    Reads ((renderList l).toList ++ x, { outer }) (x, { frame := f, outer })

theorem rendering_simple_cons {s : Simple} (h : legible.ofSimple s) : ∃ c w,
    (rendering.ofSimple s).toList = c :: w ∧ s.kind.opens c := by
  obtain ⟨hlabel, -⟩ := legible_simple_iff.1 h
  rw [rendering_simple]
  obtain ⟨l, _ | list⟩ := s
  · obtain ⟨c, w, hcons, hopen, -⟩ := read_plain (x := []) hlabel (by simp [EndsSimple])
    exact ⟨c, w, hcons, hopen⟩
  · obtain ⟨w, hcons, -⟩ := read_opening hlabel (renderList list)
    have hopen : l.kind.opens ':' := by rw [Label.kind_of_isLegible hlabel]; rfl
    exact ⟨':', _, hcons, hopen⟩

theorem readsSimple {s : Simple} (h : legible.ofSimple s)
    (hlist : ∀ l ∈ s.selector, isLegibleList l → ReadsList l) : ReadsSimple s := by
  intro x st hx
  obtain ⟨hlabel, hargument⟩ := legible_simple_iff.1 h
  rw [rendering_simple]
  obtain ⟨l, _ | list⟩ := s
  · obtain ⟨c, w, hcons, hopen, hread⟩ := read_plain hlabel hx
    rw [Option.map_none, hcons]
    exact .single (.intro (toNat_ne_of_opens hopen) hread fun _ => rfl)
  · obtain ⟨w, hcons, hread⟩ := read_opening hlabel (renderList list)
    obtain ⟨f, hf, hlist⟩ := hlist list rfl (hargument list rfl) (')' :: x)
      ((l, st.frame) :: st.outer) (by simp [EndsPath])
    have hopen : Reads (':' :: (w ++ ((renderList list).toList ++ ')' :: x)), st)
        ((renderList list).toList ++ ')' :: x, { outer := (l, st.frame) :: st.outer }) :=
      .single (.intro (by decide) (hread _) fun _ => rfl)
    have hclose : Reads (')' :: x, { frame := f, outer := (l, st.frame) :: st.outer })
        (x, { st with frame := st.frame.addSimple ⟨l, some list⟩ }) :=
      reads_mark (by decide) rfl fun position => by simp only [step, hf]
    rw [Option.map_some, hcons, List.cons_append, List.append_assoc, List.append_assoc]
    exact (hopen.trans hlist).trans hclose

theorem foldl_addSimple (f : Frame) (done ss : List Simple) :
    ss.foldl Frame.addSimple { f with current := some (.ofSimples done) } =
      { f with current := some (.ofSimples (done ++ ss)) } := by
  induction ss generalizing done with
  | nil => rw [List.foldl_nil, List.append_nil]
  | cons s ss ih =>
    rw [List.foldl_cons, List.append_cons done s ss, ← ih]
    rfl

theorem reads_simples {ss : List Simple} (hread : ∀ s ∈ ss, ReadsSimple s)
    (hlegible : ∀ s ∈ ss, legible.ofSimple s) (htype : ∀ s ∈ ss.tail, s.kind ≠ .typeName)
    (hx : EndsSimple x) (st : State) :
    Reads ((ss.flatMap fun s => (rendering.ofSimple s).toList) ++ x, st)
      (x, { st with frame := ss.foldl Frame.addSimple st.frame }) := by
  induction ss generalizing st with
  | nil => exact .refl
  | cons s ss ih =>
    obtain ⟨hread, hreads⟩ := List.forall_mem_cons.1 hread
    obtain ⟨-, hlegible⟩ := List.forall_mem_cons.1 hlegible
    rw [List.flatMap_cons, List.append_assoc]
    have htail : ∀ t ∈ ss.tail, t.kind ≠ .typeName := fun t ht =>
      htype t (List.mem_of_mem_tail ht)
    refine (hread _ st ?_).trans (ih hreads hlegible htail _)
    cases ss with
    | nil => exact hx
    | cons t ss =>
      -- A simple selector that is no type begins with a mark, which ends the one before it.
      obtain ⟨c, w, hcons, hopen⟩ := rendering_simple_cons (hlegible t List.mem_cons_self)
      rw [List.flatMap_cons, hcons]
      exact endsSimple_of_opens (htype t List.mem_cons_self) hopen

/-- What is read when one component is. The component ends the path read so far. -/
def ReadsComponent (c : Component) : Prop := ∀ x complexes components outer, EndsStep x →
  ∃ f : Frame, f.endCompound = { complexes, components := components ++ [c] } ∧
    Reads ((rendering.ofComponent c).toList ++ x, { frame := { complexes, components }, outer })
      (x, { frame := f, outer })

theorem readsComponent_compound {c : Compound} (h : legible.ofComponent (.compound c))
    (hread : ∀ s ∈ c.simples, ReadsSimple s) : ReadsComponent (.compound c) := by
  obtain ⟨hne, hself, htype, hlegible⟩ := legible_compound_iff.1 h
  intro x complexes components outer hx
  refine ⟨{ complexes, components, current := some c }, rfl, ?_⟩
  rw [rendering_compound]
  have hreads := reads_simples hread hlegible htype (endsSimple_of_endsStep hx)
    { frame := { complexes, components }, outer }
  obtain ⟨s, ss, hss⟩ := List.exists_cons_of_ne_nil hne
  have hfold : c.simples.foldl Frame.addSimple { complexes, components } =
      { complexes, components, current := some c } := by
    have hfirst := foldl_addSimple { complexes, components } [s] ss
    rw [List.singleton_append, ← hss, ← hself] at hfirst
    rw [hss]
    exact hfirst
  rwa [hfold] at hreads

theorem readsComponent_combinator (k : Combinator) : ReadsComponent (.combinator k) := by
  intro x complexes components outer hx
  refine ⟨{ complexes, components := components ++ [.combinator k] }, rfl, ?_⟩
  cases k <;> exact reads_mark (by decide) rfl fun _ => rfl

/-! ### Joined texts -/

/-- Items that are read one by one are read from their joined texts. `ready` is the state before an
item, given those before it, and `Done` holds of the states behind it. -/
theorem reads_joined {α : Type} (text : α → List Char) (sep : List Char)
    (ends : List Char → Prop) (ready : List α → State) (Done : List α → State → Prop)
    {items : List α}
    (hitem : ∀ a ∈ items, ∀ before x, ends x →
      ∃ st, Done (before ++ [a]) st ∧ Reads (text a ++ x, ready before) (x, st))
    (hsep : ∀ before st x, Done before st → Reads (sep ++ x, st) (x, ready before))
    (hends : ∀ x, ends (sep ++ x)) (hne : items ≠ []) (hx : ends x) (before : List α) :
    ∃ st, Done (before ++ items) st ∧
      Reads (sep.intercalate (items.map text) ++ x, ready before) (x, st) := by
  induction items generalizing before with
  | nil => exact absurd rfl hne
  | cons a items ih =>
    obtain ⟨ha, hitems⟩ := List.forall_mem_cons.1 hitem
    rw [List.map_cons, intercalate_cons_append]
    cases items with
    | nil => exact ha before x hx
    | cons b items =>
      obtain ⟨st, hdone, hread⟩ := ha before _ (hends _)
      obtain ⟨st', hdone', hread'⟩ := ih hitems (List.cons_ne_nil _ _) (before ++ [a])
      refine ⟨st', by simpa using hdone', ?_⟩
      rw [List.map_cons, following, List.append_assoc]
      exact (hread.trans (hsep _ _ _ hdone)).trans hread'

/-- What is read when one complex selector is. It ends the list read so far. -/
def ReadsComplex (c : Complex) : Prop := ∀ x complexes outer, EndsPath x →
  ∃ f : Frame, f.endComplex? = some { complexes := complexes ++ [c] } ∧
    Reads ((rendering.ofComplex c).toList ++ x, { frame := { complexes }, outer })
      (x, { frame := f, outer })

theorem readsComplex {c : Complex} (h : legible.ofComplex c)
    (hread : ∀ d ∈ c.components, ReadsComponent d) : ReadsComplex c := by
  obtain ⟨hne, hself, -⟩ := legible_complex_iff.1 h
  intro x complexes outer hx
  have hitem : ∀ d ∈ c.components, ∀ before x, EndsStep x → ∃ st : State,
      (st.frame.endCompound = { complexes, components := before ++ [d] } ∧ st.outer = outer) ∧
      Reads ((rendering.ofComponent d).toList ++ x,
        { frame := { complexes, components := before }, outer }) (x, st) := by
    intro d hd before x hx
    obtain ⟨f, hf, hreads⟩ := hread d hd x complexes before outer hx
    exact ⟨_, ⟨hf, rfl⟩, hreads⟩
  have hsep : ∀ before (st : State) x,
      st.frame.endCompound = { complexes, components := before } ∧ st.outer = outer →
      Reads ([' '] ++ x, st) (x, { frame := { complexes, components := before }, outer }) := by
    intro before st x hst
    refine reads_mark (by decide) rfl fun _ => ?_
    rw [step, hst.1, hst.2]
  obtain ⟨⟨f, _⟩, ⟨hf, rfl⟩, hreads⟩ := reads_joined _ [' '] EndsStep _ _ hitem hsep
    (fun x => by simp [EndsStep]) hne hx.endsStep []
  rw [rendering_complex]
  refine ⟨f, ?_, hreads⟩
  rw [Frame.endComplex?, hf, hself]
  simpa [Complex.ofComponents, Complex.components] using hne

theorem readsList {l : SelectorList} (hne : l ≠ []) (hread : ∀ c ∈ l, ReadsComplex c) :
    ReadsList l := by
  intro x outer hx
  have hitem : ∀ c ∈ l, ∀ before x, EndsPath x → ∃ st : State,
      (st.frame.endComplex? = some { complexes := before ++ [c] } ∧ st.outer = outer) ∧
      Reads ((rendering.ofComplex c).toList ++ x, { frame := { complexes := before }, outer })
        (x, st) := by
    intro c hc before x hx
    obtain ⟨f, hf, hreads⟩ := hread c hc x before outer hx
    exact ⟨_, ⟨hf, rfl⟩, hreads⟩
  have hsep : ∀ before (st : State) x,
      st.frame.endComplex? = some { complexes := before } ∧ st.outer = outer →
      Reads ([',', ' '] ++ x, st) (x, { frame := { complexes := before }, outer }) := by
    intro before st x hst
    have hcomma : Reads (',' :: ' ' :: x, st)
        (' ' :: x, { frame := { complexes := before }, outer }) :=
      reads_mark (by decide) rfl fun _ => by simp only [step, hst.1, hst.2]
    exact hcomma.trans (reads_mark (by decide) rfl fun _ => rfl)
  obtain ⟨⟨f, _⟩, ⟨hf, rfl⟩, hreads⟩ := reads_joined _ [',', ' '] EndsPath _ _ hitem hsep
    (fun x => by simp [EndsPath]) hne hx []
  rw [renderList_toList]
  exact ⟨f, hf, hreads⟩

/-- Every part of a legible selector is read from its text. -/
theorem hereditary_reads : Hereditary (fun s => legible.ofSimple s → ReadsSimple s)
    (fun c => legible.ofComponent c → ReadsComponent c)
    (fun c => legible.ofComplex c → ReadsComplex c) where
  simple s ih h := readsSimple h fun l hl hlegible => by
    obtain ⟨hne, hcomplexes⟩ := isLegibleList_iff.1 hlegible
    exact readsList hne fun c hc => ih l hl c hc (hcomplexes c hc)
  compound c ih h := readsComponent_compound h fun s hs =>
    ih s hs ((legible_compound_iff.1 h).2.2.2 s hs)
  combinator k _ := readsComponent_combinator k
  complex c ih h := readsComplex h fun d hd => ih d hd ((legible_complex_iff.1 h).2.2 d hd)

end Reader

/-- A list that is legible at every depth is read back from its text. Names and values are texts of
Unicode characters here; trees with names or values that are not valid UTF-8 lie outside the
statement. -/
theorem readList_renderList {l : SelectorList} (h : isLegibleList l) :
    readList (renderList l) = .ok l := by
  obtain ⟨hne, hlegible⟩ := isLegibleList_iff.1 h
  have hlist : Reader.ReadsList l :=
    Reader.readsList hne fun c hc => Reader.hereditary_reads.ofComplex c (hlegible c hc)
  obtain ⟨f, hf, hreads⟩ := hlist [] [] (by simp [EndsPath])
  rw [List.append_nil] at hreads
  exact Reader.readList_of_reads hreads hf

/-- A list with namespaces, a quoted value, arguments of all forms and combinators at both ends. -/
theorem readList_renderList_nested :
    let pseudo (name argument : String) (selector : Option SelectorList) : Simple :=
      { kind := .pseudo, name, argument, selector }
    let single (s : Simple) : Complex := .ofComponents [.compound (.ofSimples [s])]
    let link : Simple :=
      { kind := .attr, name := "href", ns := "x", op := "|=", value := "a]b", modifier := "i" }
    let counted : Simple := pseudo "NTH-child" "2n + 1" (some [single (.ofType "*" "p")])
    let negated : Simple := pseudo "not" "" (some [single counted, single link])
    let l : SelectorList :=
      [.ofComponents [.combinator .child, .compound (.ofSimples [.ofType "svg" "*", negated]),
        .combinator .general], single (pseudo "lang" "en (us" none)]
    isLegibleList l ∧ renderList l =
        "> svg|*:not(:NTH-child(2n + 1 of *|p), [x|href|=\"a]b\" i]) ~, :lang(en (us)" ∧
      readList (renderList l) = .ok l :=
  ⟨by decide +kernel, by decide +kernel, readList_renderList (by decide +kernel)⟩

end SelectorCalculus
