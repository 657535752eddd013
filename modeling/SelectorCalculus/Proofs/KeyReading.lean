import SelectorCalculus.Proofs.LabelKeys
/-! Clear selectors, in whose keys no name is written right behind another one, can be read back
from their keys. -/

namespace SelectorCalculus

open Text

/-! ### Proper and clear selectors -/

/-- Selectors of proper form. The lists that stand as arguments are not empty, nor are their paths
and the compounds in them, and a compound has a type only at its head and no simple selector
twice. -/
def proper : Interpretation Bool Bool Bool where
  simple s parts :=
    s.toLabel.isProper s.selector.isSome && !s.selector.any List.isEmpty && parts.all id
  component
    | .compound c, parts => !c.isEmpty && c.simples.tail.all (·.kind ≠ .typeName) &&
      decide (c.simples.Pairwise fun s t => ¬ s.equal t) && parts.all id
    | .combinator _, _ => true
  complex
    | .path cs _, parts => !cs.isEmpty && parts.all id
    | .absent, _ => false

def Simple.isProper (s : Simple) : Bool := proper.ofSimple s

/-- Whether no name goes on when one text is written right behind another. -/
def standsApart (k l : String) : Bool :=
  !(k.toList.getLast?.any Identifier.isBody && l.toList.head?.any Identifier.isBody)

/-- Selectors whose keys set their parts off from each other. -/
def clear : Interpretation Bool Bool Bool where
  simple s parts := s.toLabel.isClear && parts.all id
  component
    | .compound c, parts =>
      decide ((distinct (c.simples.map Simple.key)).IsChain fun k l => standsApart k l) &&
        parts.all id
    | .combinator _, _ => true
  complex _ parts := parts.all id

def Simple.isClear (s : Simple) : Bool := clear.ofSimple s

theorem Simple.isProper_iff {s : Simple} : s.isProper ↔ s.toLabel.isProper s.selector.isSome ∧
    ∀ l ∈ s.selector, l ≠ [] ∧ ∀ c ∈ l, proper.ofComplex c := by
  rw [isProper, Interpretation.ofSimple_eq]
  obtain ⟨l, _ | list⟩ := s <;> simp [proper, and_assoc]

theorem proper_compound_iff {c : Compound} : proper.ofComponent (.compound c) ↔
    c.simples ≠ [] ∧ (∀ s ∈ c.simples.tail, s.kind ≠ .typeName) ∧
      c.simples.Pairwise (fun s t => ¬ s.equal t) ∧ ∀ s ∈ c.simples, s.isProper := by
  rw [Interpretation.ofComponent_compound, Interpretation.ofCompound_eq]
  simp [proper, and_assoc, Compound.isEmpty, Simple.isProper]

theorem proper_complex_iff {c : Complex} : proper.ofComplex c ↔
    c.components ≠ [] ∧ ∀ d ∈ c.components, proper.ofComponent d := by
  rw [Interpretation.ofComplex_eq]
  cases c <;> simp [proper, Complex.components]

theorem Simple.isClear_iff {s : Simple} : s.isClear ↔ s.toLabel.isClear ∧
    ∀ l ∈ s.selector, ∀ c ∈ l, clear.ofComplex c := by
  rw [isClear, Interpretation.ofSimple_eq]
  obtain ⟨l, _ | list⟩ := s <;> simp [clear]

theorem clear_compound_iff {c : Compound} : clear.ofComponent (.compound c) ↔
    (distinct (c.simples.map Simple.key)).IsChain (fun k l => standsApart k l) ∧
      ∀ s ∈ c.simples, s.isClear := by
  rw [Interpretation.ofComponent_compound, Interpretation.ofCompound_eq]
  simp [clear, Simple.isClear]

theorem clear_complex_iff {c : Complex} : clear.ofComplex c ↔
    ∀ d ∈ c.components, clear.ofComponent d := by
  rw [Interpretation.ofComplex_eq]
  simp [clear]

/-! ### Every level -/

/-- What follows a compound or a combinator in a key. -/
def EndsStep (x : List Char) : Prop := ∀ c ∈ x.head?, c = ' ' ∨ c = ',' ∨ c = ')'

/-- What follows a path in a key. -/
def EndsPath (x : List Char) : Prop := ∀ c ∈ x.head?, c = ',' ∨ c = ')'

theorem EndsPath.endsStep {x : List Char} (h : EndsPath x) : EndsStep x := fun c hc =>
  Or.inr (h c hc)

/-- Equal and with the same rest, whenever the keys with their rests are the same. -/
def Simple.Readable (s : Simple) : Prop :=
  s.isProper → s.isClear → ∀ t : Simple, t.isProper → t.isClear → ∀ x y,
    EndsKey s.key.toList x → EndsKey t.key.toList y → s.key.toList ++ x = t.key.toList ++ y →
      s.equal t ∧ x = y

def Component.Readable (c : Component) : Prop :=
  proper.ofComponent c → clear.ofComponent c → ∀ d : Component, proper.ofComponent d →
    clear.ofComponent d → ∀ x y, EndsStep x → EndsStep y →
      (keys.ofComponent c).toList ++ x = (keys.ofComponent d).toList ++ y → c.equal d ∧ x = y

def Complex.Readable (c : Complex) : Prop :=
  proper.ofComplex c → clear.ofComplex c → ∀ d : Complex, proper.ofComplex d →
    clear.ofComplex d → ∀ x y, EndsPath x → EndsPath y →
      (keys.ofComplex c).toList ++ x = (keys.ofComplex d).toList ++ y → c.equal d ∧ x = y

theorem intercalate_toList_inj (stops : List Char → List Char → Prop) (ends : List Char → Prop)
    {sep : String} {ks ls : List String} {x y : List Char} (hne : ks ≠ []) (hne' : ls ≠ [])
    (hread : ∀ k ∈ ks, ∀ l ∈ ls, ∀ u v, stops k.toList u → stops l.toList v →
      k.toList ++ u = l.toList ++ v → k = l ∧ u = v)
    (hks : ∀ k ∈ ks, ∀ u, ¬ ends (sep.toList ++ (k.toList ++ u)))
    (hls : ∀ l ∈ ls, ∀ u, ¬ ends (sep.toList ++ (l.toList ++ u))) (hx : ends x) (hy : ends y)
    (hkx : Delimited stops sep.toList (ks.map String.toList) x)
    (hly : Delimited stops sep.toList (ls.map String.toList) y)
    (h : (sep.intercalate ks).toList ++ x = (sep.intercalate ls).toList ++ y) :
    ks = ls ∧ x = y := by
  have hread' : ∀ k ∈ ks.map String.toList, ∀ l ∈ ls.map String.toList, ∀ u v, stops k u →
      stops l v → k ++ u = l ++ v → k = l ∧ u = v := by
    simp only [List.forall_mem_map]
    intro k hk l hl u v hu hv heq
    obtain ⟨hkl, huv⟩ := hread k hk l hl u v hu hv heq
    exact ⟨by rw [hkl], huv⟩
  have hfollowing : following sep.toList (ks.map String.toList) x =
      following sep.toList (ls.map String.toList) y := by
    rw [String.toList_intercalate, String.toList_intercalate] at h
    obtain ⟨k, ks, rfl⟩ := List.exists_cons_of_ne_nil hne
    obtain ⟨l, ls, rfl⟩ := List.exists_cons_of_ne_nil hne'
    simp only [List.map_cons, following, List.append_assoc] at h ⊢
    rw [h]
  obtain ⟨hkl, hxy⟩ := intercalate_append_inj hread' (by simpa using hks) (by simpa using hls)
    hx hy hkx hly hfollowing
  exact ⟨List.map_injective_iff.2 (fun _ _ => String.toList_inj.1) hkl, hxy⟩

theorem EndsKey.nil (k : List Char) : EndsKey k [] := by simp [EndsKey]

theorem EndsStep.endsKey {x : List Char} (h : EndsStep x) (k : List Char) : EndsKey k x := by
  have hne : ∀ c : Char, c = ' ' ∨ c = ',' ∨ c = ')' →
      c ≠ '|' ∧ c ≠ '(' ∧ ¬ Identifier.isBody c := by
    rintro c (rfl | rfl | rfl) <;> decide
  exact ⟨fun c hc => ⟨(hne c (h c hc)).1, (hne c (h c hc)).2.1⟩,
    fun _ _ _ d hd => (hne d (h d hd)).2.2⟩

theorem Simple.key_cons {s : Simple} (h : s.isProper) :
    ∃ c u, s.key.toList = c :: u ∧ s.kind.opens c := by
  rw [Simple.key_eq]
  exact Label.key_cons (Simple.isProper_iff.1 h).1 _

theorem Kind.opens_ne {k : Kind} {c : Char} (h : k.opens c) :
    c ∉ ['|', '(', ' ', ',', ')', '>', '~', '+'] := by
  have hne : ∀ d ∈ ['|', '(', ' ', ',', ')', '>', '~', '+'], !k.opens d :=
    List.all_eq_true.1 (by cases k <;> decide)
  intro hc
  have hclosed := hne c hc
  rw [h] at hclosed
  cases hclosed

section Levels

variable {l l' : SelectorList} {x y : List Char}

theorem distinct_ne_nil {texts : List String} (h : texts ≠ []) : distinct texts ≠ [] := by
  obtain ⟨t, rest, rfl⟩ := List.exists_cons_of_ne_nil h
  exact List.ne_nil_of_mem (mem_distinct.2 List.mem_cons_self)

theorem members_of_distinct_eq {R : α → α → Prop} {f : α → String} {xs ys : List α}
    (hR : ∀ a ∈ xs, ∀ b ∈ ys, f a = f b → R a b)
    (h : distinct (xs.map f) = distinct (ys.map f)) :
    (∀ a ∈ xs, ∃ b ∈ ys, R a b) ∧ ∀ b ∈ ys, ∃ a ∈ xs, R a b := by
  constructor
  · intro a ha
    have hmem : f a ∈ distinct (xs.map f) := mem_distinct.2 (List.mem_map_of_mem ha)
    rw [h, mem_distinct] at hmem
    obtain ⟨b, hb, hab⟩ := List.mem_map.1 hmem
    exact ⟨b, hb, hR a ha b hb hab.symm⟩
  · intro b hb
    have hmem : f b ∈ distinct (ys.map f) := mem_distinct.2 (List.mem_map_of_mem hb)
    rw [← h, mem_distinct] at hmem
    obtain ⟨a, ha, hab⟩ := List.mem_map.1 hmem
    exact ⟨a, ha, hR a ha b hb hab⟩

theorem forall₂_of_map_eq {R : α → α → Prop} {f : α → String} {xs ys : List α}
    (hR : ∀ a ∈ xs, ∀ b ∈ ys, f a = f b → R a b) (h : xs.map f = ys.map f) :
    List.Forall₂ R xs ys := by
  induction xs generalizing ys with
  | nil =>
    cases ys with
    | nil => exact List.Forall₂.nil
    | cons b ys => cases h
  | cons a xs ih =>
    cases ys with
    | nil => cases h
    | cons b ys =>
      obtain ⟨hab, hrest⟩ := List.cons.inj h
      refine List.Forall₂.cons (hR a List.mem_cons_self b List.mem_cons_self hab) (ih ?_ hrest)
      exact fun a ha b hb => hR a (List.mem_cons_of_mem _ ha) b (List.mem_cons_of_mem _ hb)

/-- Lists whose members are readable can be read back up to a parenthesis. -/
theorem joinDistinct_complex_inj (hread : ∀ c ∈ l, c.Readable) (hne : l ≠ []) (hne' : l' ≠ [])
    (hl : ∀ c ∈ l, proper.ofComplex c ∧ clear.ofComplex c)
    (hl' : ∀ c ∈ l', proper.ofComplex c ∧ clear.ofComplex c)
    (h : (joinDistinct ", " (l.map keys.ofComplex)).toList ++ ')' :: x =
      (joinDistinct ", " (l'.map keys.ofComplex)).toList ++ ')' :: y) :
    equalLists l l' ∧ x = y := by
  have hinj : ∀ c ∈ l, ∀ d ∈ l', ∀ u v, EndsPath u → EndsPath v →
      (keys.ofComplex c).toList ++ u = (keys.ofComplex d).toList ++ v → c.equal d ∧ u = v :=
    fun c hc d hd u v => hread c hc (hl c hc).1 (hl c hc).2 d (hl' d hd).1 (hl' d hd).2 u v
  obtain ⟨hkeys, hxy⟩ := intercalate_toList_inj (fun _ => EndsPath) (fun u => u.head? ≠ some ',')
    (distinct_ne_nil (by simpa using hne)) (distinct_ne_nil (by simpa using hne'))
    (fun k hk m hm u v hu hv heq => by
      obtain ⟨c, hc, rfl⟩ := List.mem_map.1 (mem_distinct.1 hk)
      obtain ⟨d, hd, rfl⟩ := List.mem_map.1 (mem_distinct.1 hm)
      obtain ⟨hcd, huv⟩ := hinj c hc d hd u v hu hv heq
      exact ⟨Complex.key_eq_of_equal hcd, huv⟩)
    (by simp) (by simp) (by simp) (by simp)
    (delimited_of_rest (by simp [EndsPath]) _ (by simp [EndsPath]))
    (delimited_of_rest (by simp [EndsPath]) _ (by simp [EndsPath])) h
  refine ⟨equalLists_iff.2 (members_of_distinct_eq (fun c hc d hd heq => ?_) hkeys),
    (List.cons.inj hxy).2⟩
  exact (hinj c hc d hd [] [] (by simp [EndsPath]) (by simp [EndsPath]) (by rw [heq])).1

theorem Complex.readable {c : Complex} (hread : ∀ d ∈ c.components, d.Readable) : c.Readable := by
  intro hp hc d hp' hc' x y hx hy h
  obtain ⟨hne, hp⟩ := proper_complex_iff.1 hp
  obtain ⟨hne', hp'⟩ := proper_complex_iff.1 hp'
  rw [clear_complex_iff] at hc hc'
  have hinj : ∀ a ∈ c.components, ∀ b ∈ d.components, ∀ u v, EndsStep u → EndsStep v →
      (keys.ofComponent a).toList ++ u = (keys.ofComponent b).toList ++ v → a.equal b ∧ u = v :=
    fun a ha b hb u v => hread a ha (hp a ha) (hc a ha) b (hp' b hb) (hc' b hb) u v
  rw [keys_complex, keys_complex] at h
  have hends {x : List Char} (hx : EndsPath x) : x.head? ≠ some ' ' := by
    intro hhead
    rcases hx ' ' hhead with h | h <;> exact absurd h (by decide)
  obtain ⟨hkeys, hxy⟩ := intercalate_toList_inj (fun _ => EndsStep) (fun u => u.head? ≠ some ' ')
    (by simpa using hne) (by simpa using hne')
    (fun k hk m hm u v hu hv heq => by
      obtain ⟨a, ha, rfl⟩ := List.mem_map.1 hk
      obtain ⟨b, hb, rfl⟩ := List.mem_map.1 hm
      obtain ⟨hab, huv⟩ := hinj a ha b hb u v hu hv heq
      exact ⟨Component.key_eq_of_equal hab, huv⟩)
    (by simp) (by simp) (hends hx) (hends hy)
    (delimited_of_rest (by simp [EndsStep]) _ hx.endsStep)
    (delimited_of_rest (by simp [EndsStep]) _ hy.endsStep) h
  refine ⟨?_, hxy⟩
  have hpaths : equalPaths c.components d.components :=
    equalPaths_iff.2 (forall₂_of_map_eq (fun a ha b hb heq =>
      (hinj a ha b hb [] [] (by simp [EndsStep]) (by simp [EndsStep]) (by rw [heq])).1) hkeys)
  cases c with
  | absent => exact absurd rfl hne
  | path cs b =>
    cases d with
    | absent => exact absurd rfl hne'
    | path ds b' => exact hpaths

/-- The keys of a clear compound are delimited by each other. -/
theorem delimited_of_isChain {ks : List String}
    (hks : ∀ k ∈ ks, ∃ s : Simple, s.isProper ∧ s.key = k)
    (hchain : ks.IsChain fun k l => standsApart k l) (hx : EndsStep x) :
    Delimited EndsKey [] (ks.map String.toList) x := by
  induction ks with
  | nil => trivial
  | cons k ks ih =>
    refine ⟨?_, ih (fun k hk => hks k (List.mem_cons_of_mem _ hk)) hchain.tail⟩
    cases ks with
    | nil => exact hx.endsKey _
    | cons m ks =>
      obtain ⟨s, hs, rfl⟩ := hks m (by simp)
      obtain ⟨c, u, hcons, hopen⟩ := Simple.key_cons hs
      have hapart := (List.isChain_cons_cons.1 hchain).1
      simp only [standsApart, hcons, List.head?_cons, Option.any_some, Bool.not_eq_true',
        Bool.and_eq_false_iff] at hapart
      rw [List.map_cons, following, List.nil_append, intercalate_cons_append, hcons,
        List.cons_append]
      have hne := Kind.opens_ne hopen
      simp only [List.mem_cons, not_or] at hne
      refine ⟨by simp [hne], fun d hd hbody e he => ?_⟩
      obtain rfl : c = e := by simpa using he
      rcases hapart with hapart | hapart
      · rw [hd, Option.any_some, hbody] at hapart
        cases hapart
      · simp [hapart]

theorem Compound.readable {c d : Compound} (hread : ∀ s ∈ c.simples, s.Readable)
    (hp : proper.ofComponent (.compound c)) (hc : clear.ofComponent (.compound c))
    (hp' : proper.ofComponent (.compound d)) (hc' : clear.ofComponent (.compound d))
    (hx : EndsStep x) (hy : EndsStep y)
    (h : (keys.ofComponent (.compound c)).toList ++ x =
      (keys.ofComponent (.compound d)).toList ++ y) : c.equal d ∧ x = y := by
  obtain ⟨hne, -, hapart, hps⟩ := proper_compound_iff.1 hp
  obtain ⟨hne', -, hapart', hps'⟩ := proper_compound_iff.1 hp'
  obtain ⟨hchain, hcs⟩ := clear_compound_iff.1 hc
  obtain ⟨hchain', hcs'⟩ := clear_compound_iff.1 hc'
  have hinj : ∀ s ∈ c.simples, ∀ t ∈ d.simples, ∀ u v, EndsKey s.key.toList u →
      EndsKey t.key.toList v → s.key.toList ++ u = t.key.toList ++ v → s.equal t ∧ u = v :=
    fun s hs t ht u v => hread s hs (hps s hs) (hcs s hs) t (hps' t ht) (hcs' t ht) u v
  have hstep {c : Compound} (hps : ∀ s ∈ c.simples, s.isProper) :
      ∀ k ∈ distinct (c.simples.map Simple.key), ∃ s : Simple, s.isProper ∧ s.key = k := by
    intro k hk
    obtain ⟨s, hs, rfl⟩ := List.mem_map.1 (mem_distinct.1 hk)
    exact ⟨s, hps s hs, rfl⟩
  have hends {c : Compound} (hps : ∀ s ∈ c.simples, s.isProper) :
      ∀ k ∈ distinct (c.simples.map Simple.key), ∀ u,
        ¬ EndsStep ("".toList ++ (k.toList ++ u)) := by
    intro k hk u hu
    obtain ⟨s, hs, rfl⟩ := hstep hps k hk
    obtain ⟨e, w, hcons, hopen⟩ := Simple.key_cons hs
    refine Kind.opens_ne hopen ?_
    rcases hu e (by simp [hcons]) with rfl | rfl | rfl <;> simp
  rw [keys_compound, keys_compound] at h
  obtain ⟨hkeys, hxy⟩ := intercalate_toList_inj EndsKey EndsStep
    (distinct_ne_nil (by simpa using hne)) (distinct_ne_nil (by simpa using hne'))
    (fun k hk m hm u v hu hv heq => by
      obtain ⟨s, hs, rfl⟩ := List.mem_map.1 (mem_distinct.1 hk)
      obtain ⟨t, ht, rfl⟩ := List.mem_map.1 (mem_distinct.1 hm)
      obtain ⟨hst, huv⟩ := hinj s hs t ht u v hu hv heq
      exact ⟨Simple.key_eq_of_equal hst, huv⟩)
    (hends hps) (hends hps') hx hy (delimited_of_isChain (hstep hps) hchain hx)
    (delimited_of_isChain (hstep hps') hchain' hy) h
  have hmembers := members_of_distinct_eq (fun s hs t ht heq =>
    (hinj s hs t ht [] [] (EndsKey.nil _) (EndsKey.nil _) (by rw [heq])).1) hkeys
  -- Different simple selectors have different keys, so the compounds have the same length.
  have hnodup : (c.simples.map Simple.key).Nodup := by
    refine List.pairwise_map.2 (hapart.imp_of_mem fun {s t} hs ht hne heq => hne ?_)
    exact (hread s hs (hps s hs) (hcs s hs) t (hps t ht) (hcs t ht) [] [] (EndsKey.nil _)
      (EndsKey.nil _) (by rw [heq])).1
  have hnodup' : (d.simples.map Simple.key).Nodup := by
    refine List.pairwise_map.2 (hapart'.imp_of_mem fun {t t'} ht ht' hne heq => hne ?_)
    obtain ⟨s, hs, hst⟩ := hmembers.2 t ht
    have hst' := (hinj s hs t' ht' [] [] (EndsKey.nil _) (EndsKey.nil _)
      (by rw [← heq, Simple.key_eq_of_equal hst])).1
    exact Simple.equal_trans (Simple.equal_symm hst) hst'
  have hlength : c.simples.length = d.simples.length := by
    have hlen := congrArg List.length hkeys
    rwa [length_distinct hnodup, length_distinct hnodup', List.length_map, List.length_map] at hlen
  exact ⟨Compound.equal_iff.2 ⟨hlength, hmembers⟩, hxy⟩

theorem keys_combinator (k : Combinator) : keys.ofComponent (.combinator k) = k.text := rfl

theorem keys_compound_cons {c : Compound} (hp : proper.ofComponent (.compound c)) :
    ∃ e u, (keys.ofComponent (.compound c)).toList = e :: u ∧ ∃ k : Kind, k.opens e := by
  obtain ⟨hne, -, -, hps⟩ := proper_compound_iff.1 hp
  obtain ⟨k, ks, hks⟩ := List.exists_cons_of_ne_nil (distinct_ne_nil
    (show c.simples.map Simple.key ≠ [] by simpa using hne))
  have hk : k ∈ distinct (c.simples.map Simple.key) := by simp [hks]
  obtain ⟨s, hs, rfl⟩ := List.mem_map.1 (mem_distinct.1 hk)
  obtain ⟨e, u, hcons, hopen⟩ := Simple.key_cons (hps s hs)
  have hkey := @intercalate_cons_append [] s.key.toList (ks.map String.toList) []
  rw [List.append_nil, hcons] at hkey
  refine ⟨e, u ++ following [] (ks.map String.toList) [], ?_, s.kind, hopen⟩
  rw [keys_compound, joinDistinct, hks, String.toList_intercalate, List.map_cons,
    String.toList_empty, hcons]
  exact hkey

theorem Combinator.text_cons (k : Combinator) : ∃ e, k.text.toList = [e] ∧ e ∈ ['>', '~', '+'] := by
  cases k
  · exact ⟨'>', rfl, by decide⟩
  · exact ⟨'~', rfl, by decide⟩
  · exact ⟨'+', rfl, by decide⟩

theorem keys_compound_ne_combinator {c : Compound} (hp : proper.ofComponent (.compound c))
    (k : Combinator) : (keys.ofComponent (.compound c)).toList ++ x ≠ k.text.toList ++ y := by
  intro h
  obtain ⟨e, u, hcons, kind, hopen⟩ := keys_compound_cons hp
  obtain ⟨e', htext, he'⟩ := k.text_cons
  rw [hcons, htext] at h
  obtain ⟨rfl, -⟩ := List.cons.inj h
  exact Kind.opens_ne hopen (List.mem_append_right ['|', '(', ' ', ',', ')'] he')

/-- All proper and clear selectors can be read back from their keys. -/
theorem hereditary_readable :
    Hereditary Simple.Readable Component.Readable Complex.Readable where
  simple s ih hp hc t hp' hc' x y hx hy h := by
    obtain ⟨hp, hsel⟩ := Simple.isProper_iff.1 hp
    obtain ⟨hp', hsel'⟩ := Simple.isProper_iff.1 hp'
    obtain ⟨hc, hcsel⟩ := Simple.isClear_iff.1 hc
    obtain ⟨hc', hcsel'⟩ := Simple.isClear_iff.1 hc'
    have hlists : ∀ l ∈ s.selector, ∀ l' ∈ t.selector, ∀ u v,
        (joinDistinct ", " (l.map keys.ofComplex)).toList ++ ')' :: u =
          (joinDistinct ", " (l'.map keys.ofComplex)).toList ++ ')' :: v →
        equalLists l l' ∧ u = v := by
      intro l hl l' hl' u v
      exact joinDistinct_complex_inj (ih l hl) (hsel l hl).1 (hsel' l' hl').1
        (fun c hc => ⟨(hsel l hl).2 c hc, hcsel l hl c hc⟩)
        (fun c hc => ⟨(hsel' l' hl').2 c hc, hcsel' l' hl' c hc⟩)
    rw [Simple.key_eq] at hx h
    rw [Simple.key_eq] at hy h
    obtain ⟨halike, hkeys, hxy⟩ := Label.key_append_inj (by simpa using hp) (by simpa using hp') hc
      hc' (by
        simp only [Option.mem_def, Option.map_eq_some_iff, forall_exists_index, and_imp,
          forall_apply_eq_imp_iff₂]
        intro l hl l' hl' u v heq
        obtain ⟨-, huv⟩ := hlists l hl l' hl' u v heq
        rw [huv] at heq
        exact ⟨String.toList_inj.1 (List.append_cancel_right heq), huv⟩) hx hy h
    refine ⟨Simple.equal_iff.2 ⟨halike, fun hk => ?_⟩, hxy⟩
    have hkeys := hkeys hk
    cases hs : s.selector with
    | none =>
      cases ht : t.selector with
      | none => trivial
      | some l' => simp [hs, ht] at hkeys
    | some l =>
      cases ht : t.selector with
      | none => simp [hs, ht] at hkeys
      | some l' =>
        simp only [hs, ht, Option.map_some, Option.some.injEq] at hkeys
        exact (hlists l hs l' ht [] [] (by rw [hkeys])).1
  compound c ih hp hc d hp' hc' x y hx hy h := by
    cases d with
    | combinator k => exact absurd h (keys_compound_ne_combinator hp k)
    | compound d =>
      exact Compound.readable ih hp hc hp' hc' hx hy h
  combinator k hp hc d hp' hc' x y hx hy h := by
    cases d with
    | compound d => exact absurd h.symm (keys_compound_ne_combinator hp' k)
    | combinator k' =>
      cases k <;> cases k' <;>
        simp_all [keys_combinator, Combinator.text, Component.equal_combinator_iff]
  complex c ih := Complex.readable ih

end Levels

end SelectorCalculus
