import SelectorCalculus.Proofs.ExtensionResults
import Mathlib.Data.Set.Card
import Mathlib.Order.WellFounded
/-! Extension terminates: a call goes into a smaller selector, or it marks targets that were not
marked, of which there are finitely many. -/

namespace SelectorCalculus

namespace Traced

theorem bind_congr {x : Traced α} {f g : α → Traced β} (h : f x.value = g x.value) :
    x >>= f = x >>= g := by
  have hbind (f : α → Traced β) :
      x >>= f = { value := (f x.value).value, events := x.events ++ (f x.value).events } := rfl
  rw [hbind f, hbind g, h]

theorem foldlM_congr {f g : β → α → Traced β} {xs : List α} (h : ∀ x ∈ xs, ∀ b, f b x = g b x)
    (b : β) : xs.foldlM f b = xs.foldlM g b := by
  induction xs generalizing b with
  | nil => rfl
  | cons x xs ih =>
    obtain ⟨hx, hxs⟩ := List.forall_mem_cons.1 h
    rw [List.foldlM_cons, List.foldlM_cons, hx b]
    exact bind_congr (ih hxs _)

end Traced

namespace Apply

variable {setting : Setting} {seen : List String}

/-! ### Keys of targets -/

theorem Group.key_notMem {g : Group} (h : g.applies setting seen) : g.key ∉ seen := by
  unfold applies at h
  rw [Bool.and_eq_true] at h
  simpa using h.1

/-- The keys of the groups of extensions that can be found in compounds. -/
def targetKeys (setting : Setting) : Set String :=
  {key | ∃ c, ∃ g ∈ groups (setting.extensions.get c), g.key = key}

/-- The key of a group depends on its members alone, and these are some of the extensions. -/
theorem targetKeys_subset (setting : Setting) :
    targetKeys setting ⊆
      (setting.extensions.values.sublists.map fun xs => Group.key ⟨0, .absent, xs⟩).toFinset := by
  rintro _ ⟨c, g, hg, rfl⟩
  have hmembers : g.members.Sublist setting.extensions.values :=
    (groupOf_of_mem_groups g hg).members.trans (setting.extensions.get_sublist c)
  rw [Finset.mem_coe, List.mem_toFinset]
  exact List.mem_map.2 ⟨g.members, List.mem_sublists.2 hmembers, rfl⟩

theorem finite_targetKeys (setting : Setting) : (targetKeys setting).Finite :=
  (Finset.finite_toSet _).subset (targetKeys_subset setting)

theorem ncard_targetKeys_le (setting : Setting) :
    (targetKeys setting).ncard ≤ 2 ^ setting.extensions.size := by
  have hle := Set.ncard_le_ncard (targetKeys_subset setting) (Finset.finite_toSet _)
  rw [Set.ncard_coe_finset] at hle
  refine hle.trans ((List.toFinset_card_le _).trans ?_)
  rw [List.length_map, List.length_sublists, CompoundIndex.size]

/-- How many keys are not yet marked. -/
noncomputable def unseen (setting : Setting) (seen : List String) : Nat :=
  {key ∈ targetKeys setting | key ∉ seen}.ncard

theorem unseen_le (setting : Setting) (seen : List String) :
    unseen setting seen ≤ 2 ^ setting.extensions.size :=
  (Set.ncard_le_ncard (Set.sep_subset _ _) (finite_targetKeys setting)).trans
    (ncard_targetKeys_le setting)

theorem unseen_cons_lt {key : String} (hkey : key ∈ targetKeys setting) (hseen : key ∉ seen) :
    unseen setting (key :: seen) < unseen setting seen := by
  refine Set.ncard_lt_ncard ?_ ((finite_targetKeys setting).subset (Set.sep_subset _ _))
  refine ⟨fun k hk => ⟨hk.1, fun h => hk.2 (List.mem_cons_of_mem _ h)⟩, fun hsub => ?_⟩
  exact (hsub ⟨hkey, hseen⟩).2 (List.mem_cons_self ..)

/-! ### What a call depends on -/

section Congruence

variable {again again' : String → Complex → Traced (List Complex)}

theorem applyGroup_congr {c : Compound} {parent : Bool} {g : Group}
    (h : g.applies setting seen → ∀ path, g.path? c parent = some path →
      again g.key (.ofComponents path) = again' g.key (.ofComponents path))
    (options : List (List Component)) :
    applyGroup setting seen again c parent options g =
      applyGroup setting seen again' c parent options g := by
  unfold applyGroup
  cases hseen : seen.contains g.key with
  | true => rfl
  | false =>
    cases hout : (if setting.checkMedia then g.outsider? setting.media else none) with
    | some x => rfl
    | none =>
      cases hpath : g.path? c parent with
      | none => rfl
      | some path =>
        have happlies : g.applies setting seen := by
          unfold Group.applies
          rw [hseen]
          cases hcheck : setting.checkMedia <;> simp_all
        simp only [h happlies path hpath]

/-- A compound as it is when the selector arguments in it have been extended. -/
def settled (c : Compound) (parts : List (Traced (Option (List Simple)))) : Compound :=
  { c with simples := (collectSimples (c.simples.zip parts) [] false).value.1 }

/-- An extender is extended in turn only if its group applies, and then with its targets marked. -/
theorem extendCompound_congr {c : Compound} {parts : List (Traced (Option (List Simple)))}
    (h : ∀ g ∈ groups (setting.extensions.get (settled c parts)), g.applies setting seen →
      ∀ path, g.path? (settled c parts) c.parent = some path →
        again g.key (.ofComponents path) = again' g.key (.ofComponents path)) :
    extendCompound setting seen again c parts = extendCompound setting seen again' c parts := by
  have hfold := Traced.foldlM_congr (fun g hg => applyGroup_congr (h g hg)) []
  unfold extendCompound
  refine Traced.bind_congr ?_
  exact congrArg (· >>= _) hfold

/-- What extension means depends on how extenders are extended in turn once keys have been marked
that were not. -/
theorem extending_congr
    (h : ∀ key ∈ targetKeys setting, key ∉ seen → ∀ c, again key c = again' key c) :
    extending setting seen again = extending setting seen again' := by
  have hcompound (c : Compound) (parts : List (Traced (Option (List Simple)))) :
      extendCompound setting seen again c parts = extendCompound setting seen again' c parts := by
    refine extendCompound_congr fun g hg happlies path _ => h g.key ⟨_, g, hg, rfl⟩ ?_ _
    exact g.key_notMem happlies
  unfold extending
  congr 1
  funext c parts
  cases c with
  | compound c => exact hcompound c parts
  | combinator k => rfl

end Congruence

/-! ### No bound is reached -/

/-- Within any two bounds above the number of keys that are not marked the results agree. -/
theorem extendComplex_bound {bound bound' : Nat} (h : unseen setting seen < bound)
    (h' : unseen setting seen < bound') :
    extendComplex setting bound seen = extendComplex setting bound' seen := by
  induction bound generalizing bound' seen with
  | zero => omega
  | succ bound ih =>
    obtain ⟨bound', rfl⟩ : ∃ n, bound' = n + 1 := ⟨bound' - 1, by omega⟩
    funext c
    rw [extendComplex_succ, extendComplex_succ]
    have hagain : extending setting seen (againBy (extendComplex setting bound) seen) =
        extending setting seen (againBy (extendComplex setting bound') seen) := by
      refine extending_congr fun key hkey hseen d => ?_
      have hlt := unseen_cons_lt hkey hseen
      have hsame : extendComplex setting bound (key :: seen) =
          extendComplex setting bound' (key :: seen) := ih (by omega) (by omega)
      unfold againBy
      rw [hsame]
    rw [hagain]

/-- The extension of a complex selector. -/
def extension (setting : Setting) : List String → Complex → Traced (List Complex × Bool) :=
  extendComplex setting (Nat.pow 2 setting.extensions.size + 1)

/-- A function that extends by the recursion, without any bound. -/
def IsExtension (setting : Setting) (f : List String → Complex → Traced (List Complex × Bool)) :
    Prop :=
  ∀ seen c, f seen c = (extending setting seen (againBy f seen)).ofComplex c

theorem isExtension_extension (setting : Setting) : IsExtension setting (extension setting) := by
  intro seen c
  have hlt : unseen setting seen < Nat.pow 2 setting.extensions.size + 1 :=
    Nat.lt_succ_of_le (unseen_le setting seen)
  have hbound : extension setting seen =
      extendComplex setting (Nat.pow 2 setting.extensions.size + 1 + 1) seen :=
    extendComplex_bound hlt (by omega)
  rw [hbound]
  rfl

/-! ### Calls -/

/-- What is extended in a call. -/
inductive Item where
  | list (l : SelectorList)
  | complex (c : Complex)
  | compound (c : Compound)
  | simple (s : Simple)

noncomputable def Item.size : Item → Nat
  | list l => sizeOf l
  | complex c => sizeOf c
  | compound c => sizeOf c
  | simple s => sizeOf s

/-- A call of the recursion: what is extended, and the keys of the targets that are marked. -/
structure Call where
  seen : List String
  item : Item

/-- Every selector as its extension, with the given targets marked. -/
abbrev extended (setting : Setting) (seen : List String) :=
  extending setting seen (againBy (extension setting) seen)

/-- The compound in which groups of extensions are looked for. -/
def current (setting : Setting) (seen : List String) (c : Compound) : Compound :=
  settled c (c.simples.map (extended setting seen).ofSimple)

/-- The calls that one call makes. -/
inductive Calls (setting : Setting) : Call → Call → Prop where
  | alternative {seen : List String} {l : SelectorList} {c : Complex} (h : c ∈ l) :
      Calls setting ⟨seen, .list l⟩ ⟨seen, .complex c⟩
  | component {seen : List String} {c : Complex} {d : Compound} (h : .compound d ∈ c.components) :
      Calls setting ⟨seen, .complex c⟩ ⟨seen, .compound d⟩
  | simple {seen : List String} {c : Compound} {s : Simple} (h : s ∈ c.simples) :
      Calls setting ⟨seen, .compound c⟩ ⟨seen, .simple s⟩
  | argument {seen : List String} {s : Simple} {l : SelectorList} (hkind : s.kind = .pseudo)
      (h : s.selector = some l) : Calls setting ⟨seen, .simple s⟩ ⟨seen, .list l⟩
  | extender {seen : List String} {c : Compound} {g : Group}
      (hg : g ∈ groups (setting.extensions.get (current setting seen c)))
      (happlies : g.applies setting seen) {path : List Component}
      (hpath : g.path? (current setting seen c) c.parent = some path) :
      Calls setting ⟨seen, .compound c⟩ ⟨g.key :: seen, .complex (.ofComponents path)⟩

/-- A call goes into a smaller selector, or it marks a key that was not marked. -/
theorem Calls.decreases {a b : Call} (h : Calls setting a b) :
    b.seen = a.seen ∧ b.item.size < a.item.size ∨
      ∃ key ∈ targetKeys setting, key ∉ a.seen ∧ b.seen = key :: a.seen := by
  cases h with
  | alternative h => exact Or.inl ⟨rfl, List.sizeOf_lt_of_mem h⟩
  | @component _ c d h =>
    refine Or.inl ⟨rfl, ?_⟩
    cases c with
    | path cs lineBreak =>
      have hmem : sizeOf (Component.compound d) < sizeOf cs := List.sizeOf_lt_of_mem h
      simp only [Item.size, Complex.path.sizeOf_spec, Component.compound.sizeOf_spec] at hmem ⊢
      omega
    | absent => cases h
  | @simple _ c s h =>
    refine Or.inl ⟨rfl, ?_⟩
    obtain ⟨ss, parent, extended⟩ := c
    have hmem : sizeOf s < sizeOf ss := List.sizeOf_lt_of_mem h
    simp only [Item.size, Compound.mk.sizeOf_spec]
    omega
  | @argument _ s l _ h =>
    obtain ⟨label, selector⟩ := s
    cases h
    refine Or.inl ⟨rfl, ?_⟩
    simp only [Item.size, Simple.mk.sizeOf_spec, Option.some.sizeOf_spec]
    omega
  | @extender _ _ g hg happlies _ _ =>
    exact Or.inr ⟨g.key, ⟨_, g, hg, rfl⟩, g.key_notMem happlies, rfl⟩

theorem wellFounded_calls (setting : Setting) : WellFounded fun b a => Calls setting a b := by
  have hlex : WellFounded (InvImage (Prod.Lex (· < ·) (· < ·))
      fun a : Call => (unseen setting a.seen, a.item.size)) :=
    InvImage.wf _ (WellFounded.prod_lex Nat.lt_wfRel.wf Nat.lt_wfRel.wf)
  refine Subrelation.wf (fun {b a} h => ?_) hlex
  rcases h.decreases with ⟨hseen, hsize⟩ | ⟨key, hkey, hseen, hcons⟩
  · rw [InvImage, hseen]
    exact Prod.Lex.right _ hsize
  · rw [InvImage, hcons]
    exact Prod.Lex.left _ _ (unseen_cons_lt hkey hseen)

/-! ### No other calls -/

/-- Used for extenders, a function leads to the results of extension at a call. -/
def Agrees (setting : Setting) (f : List String → Complex → Traced (List Complex × Bool)) :
    Call → Prop
  | ⟨seen, .list l⟩ => ∀ c ∈ l,
    (extending setting seen (againBy f seen)).ofComplex c = (extended setting seen).ofComplex c
  | ⟨seen, .complex c⟩ =>
    (extending setting seen (againBy f seen)).ofComplex c = (extended setting seen).ofComplex c
  | ⟨seen, .compound c⟩ => (extending setting seen (againBy f seen)).ofComponent (.compound c) =
    (extended setting seen).ofComponent (.compound c)
  | ⟨seen, .simple s⟩ =>
    (extending setting seen (againBy f seen)).ofSimple s = (extended setting seen).ofSimple s

variable {f : List String → Complex → Traced (List Complex × Bool)}

/-- The result of a call depends on the calls that it makes and on nothing else. -/
theorem agrees_of_calls {a : Call}
    (hsame : ∀ b, Calls setting a b → b.seen = a.seen → Agrees setting f b)
    (hmarked : ∀ key d, Calls setting a ⟨key :: a.seen, .complex d⟩ →
      f (key :: a.seen) d = extension setting (key :: a.seen) d) : Agrees setting f a := by
  obtain ⟨seen, item⟩ := a
  cases item with
  | list l =>
    intro c hc
    exact hsame _ (.alternative hc) rfl
  | complex c =>
    have hparts : c.components.map (extending setting seen (againBy f seen)).ofComponent =
        c.components.map (extended setting seen).ofComponent := by
      refine List.map_congr_left fun d hd => ?_
      cases d with
      | compound d => exact hsame _ (.component hd) rfl
      | combinator k => rfl
    dsimp only [Agrees]
    rw [Interpretation.ofComplex_eq, Interpretation.ofComplex_eq, hparts]
    rfl
  | compound c =>
    have hparts : c.simples.map (extending setting seen (againBy f seen)).ofSimple =
        c.simples.map (extended setting seen).ofSimple :=
      List.map_congr_left fun s hs => hsame _ (.simple hs) rfl
    dsimp only [Agrees]
    rw [ofComponent_extending, ofComponent_extending, hparts]
    refine extendCompound_congr fun g hg happlies path hpath => ?_
    have hcall := hmarked g.key (.ofComponents path) (.extender hg happlies hpath)
    unfold againBy
    rw [hcall]
  | simple s =>
    dsimp only [Agrees]
    rw [Interpretation.ofSimple_eq, Interpretation.ofSimple_eq]
    cases hsel : s.selector with
    | none => rfl
    | some l =>
      by_cases hkind : s.kind = .pseudo
      · have hparts : l.map (extending setting seen (againBy f seen)).ofComplex =
            l.map (extended setting seen).ofComplex :=
          List.map_congr_left (hsame _ (.argument hkind hsel) rfl)
        rw [Option.getD_some, hparts]
        rfl
      · simp [extending, hsel, hkind]

theorem agrees_of_transGen {a : Call}
    (h : ∀ key d, Relation.TransGen (Calls setting) a ⟨key :: a.seen, .complex d⟩ →
      f (key :: a.seen) d = extension setting (key :: a.seen) d) : Agrees setting f a := by
  induction a using (wellFounded_calls setting).induction with
  | _ a ih =>
    refine agrees_of_calls (fun b hb hseen => ih b hb fun key d hd => ?_) fun key d hd => ?_
    · rw [hseen] at hd ⊢
      exact h key d (.head hb hd)
    · exact h key d (.single hd)

/-- The recursion has one solution. -/
theorem isExtension_iff : IsExtension setting f ↔ f = extension setting := by
  refine ⟨fun hf => ?_, fun h => h ▸ isExtension_extension setting⟩
  funext seen c
  generalize ha : (⟨seen, .complex c⟩ : Call) = a
  induction a using (wellFounded_calls setting).transGen.induction generalizing seen c with
  | _ a ih =>
    subst ha
    rw [hf seen c, isExtension_extension setting seen c]
    exact agrees_of_transGen fun key d hd => ih _ hd.swap _ _ rfl

/-- Extension terminates. -/
structure Terminates (setting : Setting) : Prop where
  /-- Only finitely many keys can be marked. -/
  finite_keys : (targetKeys setting).Finite ∧
    (targetKeys setting).ncard ≤ 2 ^ setting.extensions.size
  /-- A call goes into a smaller selector, or it marks a key that was not marked. -/
  decreases : ∀ a b, Calls setting a b → b.seen = a.seen ∧ b.item.size < a.item.size ∨
    ∃ key ∈ targetKeys setting, key ∉ a.seen ∧ b.seen = key :: a.seen
  wellFounded : WellFounded fun b a => Calls setting a b
  /-- The result for a complex selector depends on how the extenders are extended to which its calls
  lead, and on no others. -/
  determined : ∀ f seen c, (∀ key d,
      Relation.TransGen (Calls setting) ⟨seen, .complex c⟩ ⟨key :: seen, .complex d⟩ →
        f (key :: seen) d = extension setting (key :: seen) d) →
    (extending setting seen (againBy f seen)).ofComplex c = extension setting seen c
  /-- The recursion without a bound defines the extension of complex selectors. -/
  unique : ∀ f, IsExtension setting f ↔ f = extension setting
  /-- A list is extended by extending its alternatives with nothing marked. -/
  list : ∀ l, extendList setting l = do
    let (extended, modified) ← collectAlternatives (l.map (extension setting [])) [] false
    return (if modified then extended else l, modified)

end Apply

/-- Whatever has been registered, extension terminates. Extenders may hold their own targets, lead
back to each other and stand in the arguments of pseudo selectors. -/
theorem Registry.extend_terminates (reg : Registry) (media : List String) :
    Apply.Terminates (reg.setting media) where
  finite_keys := ⟨Apply.finite_targetKeys _, Apply.ncard_targetKeys_le _⟩
  decreases _ _ h := h.decreases
  wellFounded := Apply.wellFounded_calls _
  determined f seen c h := by
    rw [Apply.isExtension_extension _ seen c]
    exact Apply.agrees_of_transGen h
  unique _ := Apply.isExtension_iff
  list _ := rfl

end SelectorCalculus
