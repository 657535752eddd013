import SelectorCalculus.Proofs.TwinSelectors
/-! The superselector check cannot tell equal selectors apart. The agreement passes from layer to
layer. -/

namespace SelectorCalculus

open Superselector

/-! ### Simple selectors -/

namespace Simple

variable {s s' t t' : Simple}

theorem sense_congr (h : s.equal t) : s.sense = t.sense := by
  unfold Label.sense
  rw [normalizedName_congr h]

theorem isPseudoClass_congr (h : s.equal t) : s.isPseudoClass = t.isPseudoClass := by
  unfold Label.isPseudoClass
  rw [kind_congr h, isPseudoElement_congr h]

theorem equal_of_equals (hs : s.equal s') (ht : t.equal t') (h : s.equal t) : s'.equal t' :=
  equal_trans (equal_symm hs) (equal_trans h ht)

theorem isSuperselectorOf_of_equal (h : s.equal t) : s.isSuperselectorOf t := by
  simp [isSuperselectorOf, h]

theorem isSuperselectorOf_of_equals (hs : s.equal s') (ht : t.equal t')
    (h : s.isSuperselectorOf t) : s'.isSuperselectorOf t' :=
  isSuperselectorOf_trans (isSuperselectorOf_of_equal (equal_symm hs))
    (isSuperselectorOf_trans h (isSuperselectorOf_of_equal ht))

theorem excludesType_of_equals (hs : s.equal s') (ht : t.equal t') (hk : s.kind = .typeName)
    (hk' : t.kind = .typeName) (h : s.excludesType t) : s'.excludesType t' := by
  have hleft := (excludesType_of_isSuperselectorOf hk (isSuperselectorOf_of_equal hs) h).2
  rw [excludesType_comm] at hleft ⊢
  exact (excludesType_of_isSuperselectorOf hk' (isSuperselectorOf_of_equal ht) hleft).2

end Simple

theorem Complex.exists_single_of_equal {c c' : Complex} {d : Compound} (h : c.equal c')
    (hd : c.single? = some d) : ∃ d', c'.single? = some d' ∧ d.equal d' := by
  have hpaths := equalPaths_iff.1 (Complex.equal.equalPaths h)
  rw [components_of_single hd] at hpaths
  obtain ⟨e, _, he, hnil, hcomponents⟩ := List.forall₂_cons_left_iff.1 hpaths
  obtain ⟨d', rfl, hd'⟩ := Component.equal_compound_iff.1 he
  cases hnil
  exact ⟨d', by simp [single?, hcomponents], hd'⟩

namespace Superselector

theorem alternativesHold_of_equals {s s' t t' : Simple} (hs : s.equal s') (ht : t.equal t')
    (h : alternativesHold s t) : alternativesHold s' t' := by
  obtain ⟨hk, hsense, l, hl, hne, hsingle⟩ := alternativesHold_iff.1 h
  obtain ⟨hk', -, l', hl', hlists⟩ := Simple.exists_argument_of_equal ht hk hl
  obtain ⟨hto, hof⟩ := equalLists_iff.1 hlists
  refine alternativesHold_iff.2 ⟨hk', Simple.sense_congr ht ▸ hsense, l', hl', ?_, ?_⟩
  · obtain ⟨c, hc⟩ := List.exists_mem_of_ne_nil _ hne
    obtain ⟨c', hc', -⟩ := hto c hc
    exact List.ne_nil_of_mem hc'
  · intro c' hc'
    obtain ⟨c, hc, heq⟩ := hof c' hc'
    obtain ⟨d, hd, hcontains⟩ := hsingle c hc
    obtain ⟨d', hd', hdd'⟩ := Complex.exists_single_of_equal heq hd
    obtain ⟨u, hu, hsu⟩ := containsSimple_iff.1 hcontains
    obtain ⟨u', hu', huu'⟩ := (Compound.equal_iff.1 hdd').2.1 u hu
    exact ⟨d', hd', containsSimple_iff.2 ⟨u', hu', Simple.equal_of_equals hs huu' hsu⟩⟩

/-! ### Compounds -/

variable {a a' b b' n m : Nat}

/-- Two checks give the same answer on twins whose depths stay below their bounds. -/
def Agree (n m : Nat) (test test' : PathTest) : Prop :=
  ∀ ⦃a a' b b' : Nat⦄ ⦃cs cs' ds ds' : List Component⦄, TwinPaths a a' cs cs' →
    TwinPaths b b' ds ds' → a + b < n → a' + b' < m → test cs ds = test' cs' ds'

theorem Agree.symm {test test' : PathTest} (h : Agree n m test test') : Agree m n test' test :=
  fun _ _ _ _ _ _ _ _ hcs hds hn hm => (h hcs.symm hds.symm hm hn).symm

theorem any_argumentsNamed_of_twins {name : String} {isClass : Bool}
    {check check' : SelectorList → Bool} {ts ts' : List Simple} (hts : TwinSimples b b' ts ts')
    (hcheck : ∀ d d' k k', d < b → d' < b' → TwinLists d d' k k' → check k → check' k')
    (hany : (argumentsNamed name isClass ts).any check) :
    (argumentsNamed name isClass ts').any check' := by
  obtain ⟨t, ht, hk, hclass, hname, k, hsel, hpass⟩ := any_argumentsNamed.1 hany
  obtain ⟨t', ht', htt'⟩ := hts.exists_right t ht
  obtain ⟨hk', -, k', d, d', hsel', hd, hd', hlists⟩ := htt'.exists_argument hk hsel
  have hclass' := Simple.isPseudoClass_congr htt'.equal ▸ hclass
  have hname' := Simple.normalizedName_congr htt'.equal ▸ hname
  exact any_argumentsNamed.2
    ⟨t', ht', hk', hclass', hname', k', hsel', hcheck d d' k k' hd hd' hlists hpass⟩

section Compounds

variable {test test' : PathTest} (h : Agree n m test test') {l l' : SelectorList}
  {ss ss' ts ts' : List Simple} {parents parents' : List Component}

include h

theorem listTest_of_twins {k k' : SelectorList} (hl : TwinLists a a' l l')
    (hk : TwinLists b b' k k') (hn : a + b < n) (hm : a' + b' < m) (htest : listTest test l k) :
    listTest test' l' k' := by
  refine listTest_iff.2 fun e' he' => ?_
  obtain ⟨e, he, -, hee'⟩ := hk.exists_left e' he'
  obtain ⟨c, hc, hce⟩ := listTest_iff.1 htest e he
  obtain ⟨c', hc', -, hcc'⟩ := hl.exists_right c hc
  exact ⟨c', hc', h hcc' hee' hn hm ▸ hce⟩

variable (hn : a + b ≤ n) (hm : a' + b' ≤ m)

include hn hm

theorem rulesOut_of_twins {name : String} {c c' : Complex} {base base' : Compound}
    (hc : TwinPaths a a' c.components c'.components)
    (hbase : TwinSimples a a' base.simples base'.simples) (hts : TwinSimples b b' ts ts')
    (hout : rulesOut test name c base ts) : rulesOut test' name c' base' ts' := by
  obtain ⟨t, ht, hout⟩ := rulesOut_iff.1 hout
  obtain ⟨t', ht', htt'⟩ := hts.exists_right t ht
  refine rulesOut_iff.2 ⟨t', ht', ?_⟩
  rw [← Simple.kind_congr htt'.equal]
  rcases hout with ⟨hk, s, hs, hsk, hex⟩ | ⟨hk, s, hs, hsk, hne⟩ | ⟨hk, hname, k, hsel, e, he, hec⟩
  · obtain ⟨s', hs', hss'⟩ := hbase.exists_right s hs
    have hex' := Simple.excludesType_of_equals hss'.equal htt'.equal hsk hk hex
    exact Or.inl ⟨hk, s', hs', Simple.kind_congr hss'.equal ▸ hsk, hex'⟩
  · obtain ⟨s', hs', hss'⟩ := hbase.exists_right s hs
    have hne' : ¬ s'.equal t' := fun heq =>
      hne (Simple.equal_of_equals hss'.symm.equal htt'.symm.equal heq)
    exact Or.inr (Or.inl ⟨hk, s', hs', Simple.kind_congr hss'.equal ▸ hsk, hne'⟩)
  · obtain ⟨-, -, k', d, d', hsel', hd, hd', hlists⟩ := htt'.exists_argument hk hsel
    obtain ⟨e', he', -, hee'⟩ := hlists.exists_right e he
    have hname' : t'.normalizedName = name := Simple.normalizedName_congr htt'.equal ▸ hname
    have hec' : test' e'.components c'.components := h hee' hc (by omega) (by omega) ▸ hec
    exact Or.inr (Or.inr ⟨hk, hname', k', hsel', e', he', hec'⟩)

theorem argumentTest_of_twins {s s' : Simple} (hs : TwinSimple a a' s s') (hk : s.kind = .pseudo)
    (hl : s.selector = some l) (hl' : s'.selector = some l') (hts : TwinSimples b b' ts ts')
    (hparents : TwinPaths b b' parents parents') (htest : argumentTest test s l ts parents) :
    argumentTest test' s' l' ts' parents' := by
  obtain ⟨-, hargument, k, c, c', hsel, hc, hc', hlists⟩ := hs.exists_argument hk hl
  obtain rfl := Option.some_injective _ (hl'.symm.trans hsel)
  have hname := Simple.normalizedName_congr hs.equal
  have hnamed {isClass : Bool}
      (hany : (argumentsNamed s.normalizedName isClass ts).any (listTest test l)) :
      (argumentsNamed s.normalizedName isClass ts').any (listTest test' l') :=
    any_argumentsNamed_of_twins hts (fun d d' _ _ hd hd' hk =>
      listTest_of_twins h hlists hk (by omega) (by omega)) hany
  have hsense' := Simple.sense_congr hs.equal
  cases hsense : s.sense <;> rw [hsense] at hsense' <;>
    simp only [argumentTest, hsense, ← hsense', ← hname] at htest ⊢
  case anyOf =>
    rw [Bool.or_eq_true] at htest ⊢
    refine htest.imp hnamed fun hany => ?_
    obtain ⟨e, he, hsubject⟩ := List.any_eq_true.1 hany
    obtain ⟨e', he', -, hee'⟩ := hlists.exists_right e he
    have hpath := hparents.snoc (.compound (c := .ofSimples ts) (d := .ofSimples ts') hts)
    exact List.any_eq_true.2 ⟨e', he', h hee' hpath (by omega) (by omega) ▸ hsubject⟩
  case related => exact hnamed htest
  case slotted => exact hnamed htest
  case negation =>
    refine List.all_eq_true.2 fun e' he' => ?_
    obtain ⟨e, he, -, hee'⟩ := hlists.exists_left e' he'
    obtain ⟨base, hbase, hout⟩ := (Option.any_eq_true _ _).1 (List.all_eq_true.1 htest e he)
    obtain ⟨base', hbase', htwins⟩ := hee'.exists_base hbase
    refine (Option.any_eq_true _ _).2 ⟨base', hbase', ?_⟩
    exact rulesOut_of_twins h (by omega) (by omega) hee' htwins hts hout
  case current =>
    refine any_argumentsNamed_of_twins hts (fun d d' k k' _ _ hkk' hlk => ?_) htest
    exact equalLists_trans (equalLists_symm hlists.equalLists)
      (equalLists_trans hlk hkk'.equalLists)
  case counting =>
    obtain ⟨t, ht, hcount⟩ := List.any_eq_true.1 htest
    simp only [Bool.and_eq_true, beq_iff_eq, Option.any_eq_true] at hcount
    obtain ⟨⟨⟨htk, htname⟩, htargument⟩, k, hk, hlk⟩ := hcount
    obtain ⟨t', ht', htt'⟩ := hts.exists_right t ht
    obtain ⟨htk', htargument', k', d, d', hk', hd, hd', hkk'⟩ := htt'.exists_argument htk hk
    have hname' := Simple.normalizedName_congr htt'.equal
    have hlk' := listTest_of_twins h hlists hkk' (by omega) (by omega) hlk
    refine List.any_eq_true.2 ⟨t', ht', ?_⟩
    simp [htk', ← hname', htname, ← htargument', htargument, hargument, hk', hlk']
  case unknown =>
    obtain ⟨t, ht, hst⟩ := containsSimple_iff.1 htest
    obtain ⟨t', ht', htt'⟩ := hts.exists_right t ht
    exact containsSimple_iff.2 ⟨t', ht', Simple.equal_of_equals hs.equal htt'.equal hst⟩

theorem simplesTest_of_twins (hss : ∀ s' ∈ ss', ∃ s ∈ ss, TwinSimple a a' s s')
    (hts : TwinSimples b b' ts ts') (hparents : TwinPaths b b' parents parents')
    (htest : simplesTest test ss ts parents) : simplesTest test' ss' ts' parents' := by
  refine simplesTest_iff.2 fun s' hs' => ?_
  obtain ⟨s, hs, hss'⟩ := hss s' hs'
  have htest := simplesTest_iff.1 htest s hs
  by_cases hsel : s.hasSelector
  · obtain ⟨hk, l, hl⟩ := Simple.hasSelector_iff.1 hsel
    obtain ⟨hk', -, l', hl', -⟩ := Simple.exists_argument_of_equal hss'.equal hk hl
    rw [simplesTest_argument hk hl] at htest
    rw [simplesTest_argument hk' hl']
    exact argumentTest_of_twins h hn hm hss' hk hl hl' hts hparents htest
  · have hsel' : ¬ s'.hasSelector := Simple.hasSelector_congr hss'.equal ▸ hsel
    obtain ⟨t, ht, habove⟩ := (simplesTest_plain hsel).1 htest
    obtain ⟨t', ht', htt'⟩ := hts.exists_right t ht
    exact (simplesTest_plain hsel').2 ⟨t', ht', habove.imp
      (Simple.isSuperselectorOf_of_equals hss'.equal htt'.equal)
      (alternativesHold_of_equals hss'.equal htt'.equal)⟩

theorem compoundTest_of_twins {c c' d d' : Compound} (hc : TwinSimples a a' c.simples c'.simples)
    (hd : TwinSimples b b' d.simples d'.simples) (hparents : TwinPaths b b' parents parents')
    (htest : compoundTest test c d parents) : compoundTest test' c' d' parents' := by
  unfold compoundTest at htest ⊢
  rcases hc.split with ⟨hnone, hnone'⟩ | ⟨front, e, front', e', hsome, hsome', he, hfront⟩
  · rcases hd.split with ⟨hplain, hplain'⟩ | ⟨_, _, _, _, helement, -, -, -⟩
    · simp only [hnone, hplain] at htest
      simp only [hnone', hplain']
      exact simplesTest_of_twins h hn hm hc.exists_left hd hparents htest
    · simp [hnone, helement] at htest
  · rcases hd.split with ⟨hplain, -⟩ | ⟨ahead, f, ahead', f', helement, helement', hf, hahead⟩
    · simp [hsome, hplain] at htest
    · simp only [hsome, helement, Bool.and_eq_true] at htest
      obtain ⟨⟨habove, htest⟩, -⟩ := htest
      have habove' := Simple.isSuperselectorOf_of_equals he hf habove
      have htest' := simplesTest_of_twins h hn hm hfront.exists_left hahead hparents htest
      have hnothing : simplesTest test' [] [] parents' = true := rfl
      simp only [hsome', helement', habove', htest', hnothing, Bool.and_self]

theorem compoundTest_congr {c c' d d' : Compound} (hc : TwinSimples a a' c.simples c'.simples)
    (hd : TwinSimples b b' d.simples d'.simples) (hparents : TwinPaths b b' parents parents') :
    compoundTest test c d parents = compoundTest test' c' d' parents' :=
  Bool.eq_iff_iff.2 ⟨compoundTest_of_twins h hn hm hc hd hparents,
    compoundTest_of_twins h.symm hm hn hc.symm hd.symm hparents.symm⟩

end Compounds

/-! ### Paths -/

section Paths

variable {ds ds' : List Component}

/-- Two tests of compounds that agree on twins pass first at the same place. -/
theorem exists_restAfter_of_twins {check check' : Compound → List Component → Bool}
    (hcheck : ∀ d d' parents parents', TwinSimples b b' d.simples d'.simples →
      TwinPaths b b' parents parents' → check d parents = check' d' parents')
    {before before' rest : List Component} (hbefore : TwinPaths b b' before before')
    (hds : TwinPaths b b' ds ds') (hrest : restAfter? check before ds = some rest) :
    ∃ rest', restAfter? check' before' ds' = some rest' ∧ TwinPaths b b' rest rest' := by
  induction hds generalizing before before' with
  | nil => cases hrest
  | @cons d d' ds ds' hd hds ih =>
    have hempty : ds.isEmpty = ds'.isEmpty := by cases hds <;> rfl
    have hpasses : d.compound?.any (check · before) = d'.compound?.any (check' · before') := by
      cases hd with
      | compound hd => exact hcheck _ _ _ _ hd hbefore
      | combinator k => rfl
    unfold restAfter? at hrest ⊢
    rw [hempty, hpasses] at hrest
    split_ifs at hrest ⊢
    · cases hrest
      exact ⟨ds', rfl, hds⟩
    · exact ih (hbefore.snoc hd) hrest

theorem startsWithCompound_congr (h : TwinPaths b b' ds ds') :
    startsWithCompound ds = startsWithCompound ds' := by
  cases h with
  | nil => rfl
  | cons hd _ => cases hd <;> rfl

theorem mayHold_congr (h : TwinPaths b b' ds ds') (n : Nat) : mayHold n ds = mayHold n ds' := by
  unfold mayHold
  rw [h.length_eq, startsWithCompound_congr h]

theorem endsWithCombinator_congr (h : TwinPaths b b' ds ds') :
    endsWithCombinator ds = endsWithCombinator ds' := by
  rcases List.eq_nil_or_concat ds with rfl | ⟨front, d, rfl⟩
  · cases h
    rfl
  · rw [List.concat_eq_append] at h ⊢
    obtain ⟨front', d', rfl, -, hd⟩ := h.exists_snoc
    unfold endsWithCombinator
    rw [List.getLast?_concat, List.getLast?_concat]
    cases hd <;> rfl

variable {test test' : PathTest} (h : Agree n m test test') (hn : a + b ≤ n) (hm : a' + b' ≤ m)

include h hn hm

theorem walk_single_of_twins {c c' : Compound} (hc : TwinSimples a a' c.simples c'.simples)
    (hds : TwinPaths b b' ds ds') (hwalk : walk test [.compound c] ds) :
    walk test' [.compound c'] ds' := by
  rw [walk, mayHold_congr hds] at hwalk
  rw [walk]
  rcases List.eq_nil_or_concat ds with rfl | ⟨front, d, rfl⟩
  · simp at hwalk
  · rw [List.concat_eq_append] at hds hwalk
    obtain ⟨front', d', rfl, hfront, hd⟩ := hds.exists_snoc
    rw [List.getLast?_concat, List.dropLast_concat] at hwalk ⊢
    cases hd with
    | combinator k => simp [Component.compound?] at hwalk
    | compound hd =>
      obtain ⟨hmay, hwalk⟩ := Bool.and_eq_true_iff.1 hwalk
      exact Bool.and_eq_true_iff.2 ⟨hmay, compoundTest_of_twins h hn hm hc hd hfront hwalk⟩

theorem exists_rest_of_twins {c c' : Compound} {rest : List Component}
    (hc : TwinSimples a a' c.simples c'.simples) (hds : TwinPaths b b' ds ds')
    (hrest : restAfter? (compoundTest test c) [] ds = some rest) :
    ∃ rest', restAfter? (compoundTest test' c') [] ds' = some rest' ∧ TwinPaths b b' rest rest' :=
  exists_restAfter_of_twins
    (fun _ _ _ _ hd hparents => compoundTest_congr h hn hm hc hd hparents) .nil hds hrest

theorem walk_of_twins : ∀ {cs cs' ds ds' : List Component}, TwinPaths a a' cs cs' →
    TwinPaths b b' ds ds' → walk test cs ds → walk test' cs' ds'
  | [], _, _, _, _, _, hwalk => by simp [walk] at hwalk
  | .combinator _ :: _, _, _, _, _, _, hwalk => by simp [walk] at hwalk
  | [.compound c], _, ds, ds', hcs, hds, hwalk => by
    obtain ⟨_, _, hc, hnil, rfl⟩ := List.forall₂_cons_left_iff.1 hcs
    cases hnil
    cases hc with
    | compound hc => exact walk_single_of_twins h hn hm hc hds hwalk
  | .compound c :: .combinator k :: rest, _, ds, ds', hcs, hds, hwalk => by
    obtain ⟨_, _, hc, hnext, rfl⟩ := List.forall₂_cons_left_iff.1 hcs
    obtain ⟨_, rest', hk, hrest, rfl⟩ := List.forall₂_cons_left_iff.1 hnext
    cases hk
    cases hc with
    | compound hc =>
      obtain ⟨hmay, k', es, hfound, hkk', hshort, hwalk⟩ := walk_combinator_iff.1 hwalk
      obtain ⟨_, hfound', htwins⟩ := exists_rest_of_twins h hn hm hc hds hfound
      obtain ⟨_, es', hk', hes, rfl⟩ := List.forall₂_cons_left_iff.1 htwins
      cases hk'
      have hwalk' := walk_of_twins hrest hes hwalk
      rw [mayHold_congr hds, hrest.length_eq] at hmay
      rw [hrest.length_eq, hds.length_eq] at hshort
      exact walk_combinator_iff.2 ⟨hmay, k', es', hfound', hkk', hshort, hwalk'⟩
  | .compound c :: .compound e :: rest, _, ds, ds', hcs, hds, hwalk => by
    obtain ⟨_, _, hc, hnext, rfl⟩ := List.forall₂_cons_left_iff.1 hcs
    obtain ⟨_, rest', he, hrest, rfl⟩ := List.forall₂_cons_left_iff.1 hnext
    cases he with
    | compound he =>
      cases hc with
      | compound hc =>
        obtain ⟨hmay, es, hfound, hwalk⟩ := walk_compound_iff.1 hwalk
        rw [mayHold_congr hds, hrest.length_eq] at hmay
        have hnext' {es' : List Component} (hes : TwinPaths b b' es es') :=
          walk_of_twins (.cons (.compound he) hrest) hes hwalk
        rcases hfound with ⟨hfound, hstarts⟩ | hfound
        · obtain ⟨es', hfound', hes⟩ := exists_rest_of_twins h hn hm hc hds hfound
          rw [startsWithCompound_congr hes] at hstarts
          exact walk_compound_iff.2 ⟨hmay, es', Or.inl ⟨hfound', hstarts⟩, hnext' hes⟩
        · obtain ⟨_, hfound', htwins⟩ := exists_rest_of_twins h hn hm hc hds hfound
          obtain ⟨_, es', hk, hes, rfl⟩ := List.forall₂_cons_left_iff.1 htwins
          cases hk
          exact walk_compound_iff.2 ⟨hmay, es', Or.inr hfound', hnext' hes⟩

end Paths

/-- The agreement of two checks passes to the checks one layer up. -/
theorem Agree.layer {test test' : PathTest} (h : Agree n m test test') :
    Agree (n + 1) (m + 1) (layer test) (layer test') := by
  intro a a' b b' cs cs' ds ds' hcs hds hn hm
  have hn := Nat.le_of_lt_succ hn
  have hm := Nat.le_of_lt_succ hm
  have hwalk : walk test cs ds = walk test' cs' ds' := Bool.eq_iff_iff.2
    ⟨walk_of_twins h hn hm hcs hds, walk_of_twins h.symm hm hn hcs.symm hds.symm⟩
  unfold Superselector.layer
  rw [endsWithCombinator_congr hcs, endsWithCombinator_congr hds, hwalk]

/-- The bounds need not be the same: equal selectors may differ in depth where it does not
matter. -/
theorem agree_deeper (n m : Nat) : Agree n m (deeper n) (deeper m) := by
  induction n generalizing m with
  | zero => exact fun _ _ _ _ _ _ _ _ _ _ hn => absurd hn (Nat.not_lt_zero _)
  | succ n ih =>
    cases m with
    | zero => exact fun _ _ _ _ _ _ _ _ _ _ _ hm => absurd hm (Nat.not_lt_zero _)
    | succ m =>
      have hlayer (k : Nat) : deeper (k + 1) = layer (deeper k) := pathTest_eq k
      rw [hlayer, hlayer]
      exact (ih m).layer

end Superselector

/-- Where pseudo elements stand last, the check gives the same answer on equal selectors. -/
theorem Complex.isSuperselectorOf_congr {c c' d d' : Complex} (hc : elementsLast.ofComplex c)
    (hc' : elementsLast.ofComplex c') (hd : elementsLast.ofComplex d)
    (hd' : elementsLast.ofComplex d') (hcc' : c.equal c') (hdd' : d.equal d') :
    c.isSuperselectorOf d = c'.isSuperselectorOf d' := by
  have hcs := twinPaths_of_equal hc hc' hcc' le_rfl le_rfl
  have hds := twinPaths_of_equal hd hd' hdd' le_rfl le_rfl
  exact agree_deeper (_ + 1) (_ + 1) hcs hds (Nat.lt_succ_self _) (Nat.lt_succ_self _)

/-- `.x > .k:is(.a.b, .c)::before` is above `.x > .a.b.k::before`, and so is
`.x > :IS(.c, .b.a, .c).k::BEFORE` above `.x > .k.b.a::Before`. -/
theorem Complex.isSuperselectorOf_congr_reordered :
    let plain (name : String) : Simple := { kind := .className, name }
    let element (name : String) : Simple := { kind := .pseudo, name, element := true }
    let anyOf (name : String) (sss : List (List Simple)) : Simple :=
      { kind := .pseudo, name,
        selector := some (sss.map fun ss => .ofComponents [.compound (.ofSimples ss)]) }
    let inside (ss : List Simple) : Complex := .ofComponents
      [.compound (.ofSimples [plain "x"]), .combinator .child, .compound (.ofSimples ss)]
    let c := inside
      [plain "k", anyOf "is" [[plain "a", plain "b"], [plain "c"]], element "before"]
    let c' := inside
      [anyOf "IS" [[plain "c"], [plain "b", plain "a"], [plain "c"]], plain "k", element "BEFORE"]
    let d := inside [plain "a", plain "b", plain "k", element "before"]
    let d' := inside [plain "k", plain "b", plain "a", element "Before"]
    (c.equal c' ∧ d.equal d') ∧ c.isSuperselectorOf d ∧
      c.isSuperselectorOf d = c'.isSuperselectorOf d' := by
  intro plain element anyOf inside c c' d d'
  have hcc' : c.equal c' := by decide +kernel
  have hdd' : d.equal d' := by decide +kernel
  exact ⟨⟨hcc', hdd'⟩, by decide +kernel, Complex.isSuperselectorOf_congr (by decide +kernel)
    (by decide +kernel) (by decide +kernel) (by decide +kernel) hcc' hdd'⟩

end SelectorCalculus
