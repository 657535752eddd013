import SelectorCalculus.Extension.CompoundIndex
import SelectorCalculus.Proofs.ExtensionSteps
import SelectorCalculus.Proofs.SharedKeys
import Mathlib.Data.List.Sort
/-! Compound indexes over whole runs: what is filed under a key, and what a search finds in
whichever order keys are looked up. -/

namespace SelectorCalculus

/-- Whether every key of a compound is a key of another one. -/
def Compound.keysWithin (c d : Compound) : Bool :=
  (c.simples.map Simple.key).all (d.simples.map Simple.key).contains

theorem Compound.keysWithin_of_contains {c d : Compound} (h : ∀ s ∈ c.simples, d.contains s) :
    c.keysWithin d := by
  simp only [keysWithin, List.all_map, List.all_eq_true, Function.comp_apply, List.contains_iff_mem,
    List.mem_map]
  intro s hs
  obtain ⟨t, ht, hst⟩ := containsSimple_iff.1 (h s hs)
  exact ⟨t, ht, (Simple.key_eq_of_equal hst).symm⟩

namespace CompoundIndex

variable {α : Type u}

/-! ### Runs -/

/-- One insertion. Where it is refused the index stays as it is. -/
def put (m : CompoundIndex α) (entry : Compound × α) : CompoundIndex α :=
  (m.insert? entry.1 entry.2).getD m

/-- The index after a run of insertions. -/
def ofPuts (entries : List (Compound × α)) : CompoundIndex α := entries.foldl put {}

/-- The insertions of a run that are not refused. -/
def accepted (entries : List (Compound × α)) : List (Compound × α) :=
  entries.filter (!·.1.isEmpty)

theorem insert?_eq_none_iff {m : CompoundIndex α} {c : Compound} {value : α} :
    m.insert? c value = none ↔ c.isEmpty := by
  unfold insert?
  split_ifs with h <;> simp [h]

theorem put_of_isEmpty (m : CompoundIndex α) {entry : Compound × α} (h : entry.1.isEmpty) :
    m.put entry = m := by
  rw [put, insert?_eq_none_iff.2 h, Option.getD_none]

@[simp] theorem ofPuts_snoc (entries : List (Compound × α)) (entry : Compound × α) :
    ofPuts (entries ++ [entry]) = (ofPuts entries).put entry := by
  simp [ofPuts]

/-! ### What is filed under a key -/

/-- How compounds are filed that are inserted one after another. -/
def filedAs (entries : List (Compound × α)) : List Filed :=
  entries.zipIdx.map fun entry => ⟨entry.1.1.simples.map Simple.key, entry.2⟩

theorem filedAs_snoc (entries : List (Compound × α)) (entry : Compound × α) :
    filedAs (entries ++ [entry]) =
      filedAs entries ++ [⟨entry.1.simples.map Simple.key, entries.length⟩] := by
  simp [filedAs, List.zipIdx_append]

theorem lookup_file (entry : Filed) (key key' : String) (index : List (String × List Filed)) :
    ((file entry key index).lookup key').getD [] =
      (index.lookup key').getD [] ++ (if key' = key then [entry] else []) := by
  induction index with
  | nil =>
    by_cases h : key' = key
    · simp [file, h]
    · simp [file, List.lookup_cons, beq_false_of_ne h, h]
  | cons first rest ih =>
    obtain ⟨k, filed⟩ := first
    unfold file
    by_cases hk : k = key
    · subst hk
      by_cases h : key' = k
      · simp [h]
      · simp [List.lookup_cons, beq_false_of_ne h, h]
    · by_cases h : key' = k
      · simp [h, hk]
      · simpa [List.lookup_cons, hk, beq_false_of_ne h] using ih

theorem lookup_foldl_file (entry : Filed) {keys : List String} (hkeys : keys.Nodup)
    (index : List (String × List Filed)) (key' : String) :
    ((keys.foldl (fun index key => file entry key index) index).lookup key').getD [] =
      (index.lookup key').getD [] ++ (if key' ∈ keys then [entry] else []) := by
  induction keys generalizing index with
  | nil => simp
  | cons key rest ih =>
    obtain ⟨hkey, hrest⟩ := List.nodup_cons.1 hkeys
    rw [List.foldl_cons, ih hrest, lookup_file]
    by_cases h : key' = key
    · subst h
      simp [hkey]
    · simp [h]

/-- The index holds the values of some entries, and under each key the compounds that have it. -/
structure Holds (m : CompoundIndex α) (entries : List (Compound × α)) : Prop where
  values : m.values = entries.map Prod.snd
  filed : ∀ key, m.filedUnder key = (filedAs entries).filter (·.keys.contains key)

theorem Holds.put {m : CompoundIndex α} {entries : List (Compound × α)} (h : m.Holds entries)
    {entry : Compound × α} (hentry : ¬ entry.1.isEmpty) :
    (m.put entry).Holds (entries ++ [entry]) := by
  have hsize : m.size = entries.length := by simp [size, h.values]
  constructor
  · simp [CompoundIndex.put, insert?, hentry, h.values]
  · intro key
    have hfiled := h.filed key
    have hnodup := nodup_eraseDups (entry.1.simples.map Simple.key)
    unfold filedUnder at hfiled ⊢
    simp only [CompoundIndex.put, insert?, hentry, Bool.false_eq_true, if_false, Option.getD_some]
    rw [lookup_foldl_file _ hnodup, hfiled, filedAs_snoc, List.filter_append, hsize]
    by_cases hkey : key ∈ entry.1.simples.map Simple.key <;> simp [hkey]

theorem holds_ofPuts (entries : List (Compound × α)) :
    (ofPuts entries).Holds (accepted entries) := by
  induction entries using List.reverseRecOn with
  | nil => exact ⟨rfl, fun _ => rfl⟩
  | append_singleton entries entry ih =>
    rw [ofPuts_snoc]
    by_cases h : entry.1.isEmpty
    · rw [put_of_isEmpty _ h]
      simpa [accepted, h] using ih
    · simpa [accepted, h] using ih.put h

/-! ### What is found -/

theorem mem_filedAs {entries : List (Compound × α)} {filed : Filed} :
    filed ∈ filedAs entries ↔ ∃ c value, entries[filed.number]? = some (c, value) ∧
      filed.keys = c.simples.map Simple.key := by
  obtain ⟨keys, number⟩ := filed
  simp only [filedAs, List.mem_map, List.mem_zipIdx_iff_getElem?, Prod.exists, Filed.mk.injEq]
  constructor
  · rintro ⟨c, value, i, hi, rfl, rfl⟩
    exact ⟨c, value, hi, rfl⟩
  · rintro ⟨c, value, hi, rfl⟩
    exact ⟨c, value, number, hi, rfl, rfl⟩

/-- A compound that is not empty is found under one of its keys, so a search looks at every compound
that can be part of the query. -/
theorem Holds.mem_search_iff {m : CompoundIndex α} {entries : List (Compound × α)}
    (h : m.Holds entries) (hentries : ∀ entry ∈ entries, ¬ entry.1.isEmpty) {q : Compound}
    {number : Nat} : number ∈ m.search (q.simples.map Simple.key) ↔
      ∃ c value, entries[number]? = some (c, value) ∧ c.keysWithin q := by
  simp only [search, List.mem_map, List.mem_filter, List.mem_flatMap, h.filed, mem_filedAs]
  constructor
  · rintro ⟨filed, ⟨⟨key, -, ⟨c, value, hc, hkeys⟩, -⟩, hall⟩, rfl⟩
    rw [hkeys] at hall
    exact ⟨c, value, hc, hall⟩
  · rintro ⟨c, value, hc, hall⟩
    have hne : ¬ c.isEmpty := hentries (c, value) (List.mem_of_getElem? hc)
    obtain ⟨s, hs⟩ : ∃ s, s ∈ c.simples := by
      simpa [Compound.isEmpty, List.isEmpty_iff, List.eq_nil_iff_forall_not_mem] using hne
    have hkey : s.key ∈ c.simples.map Simple.key := List.mem_map_of_mem hs
    have hwithin : s.key ∈ q.simples.map Simple.key := by
      simpa using List.all_eq_true.1 hall s.key hkey
    refine ⟨⟨c.simples.map Simple.key, number⟩, ⟨⟨s.key, ?_, ⟨c, value, hc, rfl⟩, ?_⟩, hall⟩, rfl⟩
    · simpa using hwithin
    · simpa using hkey

/-- The values found are those of the compounds whose keys are all among those of the query. -/
theorem Holds.get_eq {m : CompoundIndex α} {entries : List (Compound × α)} (h : m.Holds entries)
    (hentries : ∀ entry ∈ entries, ¬ entry.1.isEmpty) (q : Compound) :
    m.get q = (entries.filter (·.1.keysWithin q)).map Prod.snd := by
  have hzip : m.values.zipIdx = entries.zipIdx.map (Prod.map Prod.snd id) := by
    rw [h.values, List.zipIdx_map]
  have hfilter : entries.zipIdx.filter
        (fun entry => (m.search (q.simples.map Simple.key)).contains entry.2) =
      entries.zipIdx.filter (fun entry => entry.1.1.keysWithin q) := by
    refine List.filter_congr fun entry hentry => Bool.eq_iff_iff.2 ?_
    have hget := List.mem_zipIdx_iff_getElem?.1 hentry
    rw [List.contains_iff_mem, h.mem_search_iff hentries, hget]
    constructor
    · rintro ⟨c, value, heq, hc⟩
      rwa [Option.some.inj heq]
    · exact fun hc => ⟨entry.1.1, entry.1.2, rfl, hc⟩
  have hfst : (entries.zipIdx.filter (fun entry => entry.1.1.keysWithin q)).map Prod.fst =
      entries.filter (·.1.keysWithin q) := by
    conv_rhs => rw [← List.zipIdx_map_fst 0 entries, List.filter_map]
    rfl
  rw [get, hzip, List.filter_map, List.map_map]
  conv_rhs => rw [← hfst, ← hfilter, List.map_map]
  rfl

/-! ### Looking up the keys in any order -/

/-- The numbers found by looking up the keys one after another, each once. -/
def scan (m : CompoundIndex α) (keys : List String) : List Nat :=
  (m.search keys).foldl (addUnless (· == ·)) []

/-- The values with the numbers found, in increasing order of the numbers. -/
def lookUp (m : CompoundIndex α) (keys : List String) : List α :=
  (m.scan keys).mergeSort.filterMap (m.values[·]?)

theorem mem_scan {m : CompoundIndex α} {keys : List String} {number : Nat} :
    number ∈ m.scan keys ↔ number ∈ m.search keys := by
  constructor
  · intro h
    exact (mem_of_mem_foldl_addUnless h).resolve_left List.not_mem_nil
  · intro h
    have hfound : ∃ number' ∈ m.scan keys, (number == number') = true :=
      exists_alike_mem_foldl_addUnless (fun _ => BEq.rfl) h []
    obtain ⟨number', h', heq⟩ := hfound
    rwa [beq_iff_eq.1 heq]

theorem mem_search_congr {m : CompoundIndex α} {keys keys' : List String}
    (h : ∀ key, key ∈ keys ↔ key ∈ keys') {number : Nat} :
    number ∈ m.search keys ↔ number ∈ m.search keys' := by
  have hcontains (key : String) : keys.contains key = keys'.contains key :=
    Bool.eq_iff_iff.2 (by simpa using h key)
  simp only [search, List.mem_map, List.mem_filter, List.mem_flatMap, h, List.all_eq_true,
    hcontains]

theorem filterMap_filter_range (p : Nat → Bool) (values : List α) :
    ((List.range values.length).filter p).filterMap (values[·]?) =
      (values.zipIdx.filter fun entry => p entry.2).map Prod.fst := by
  induction values using List.reverseRecOn with
  | nil => rfl
  | append_singleton values value ih =>
    have hrange : ((List.range values.length).filter p).filterMap ((values ++ [value])[·]?) =
        ((List.range values.length).filter p).filterMap (values[·]?) := by
      refine List.filterMap_congr fun i hi => ?_
      have hlt : i < values.length := by simpa using List.mem_of_mem_filter hi
      exact List.getElem?_append_left hlt
    rw [List.length_append, List.length_singleton, List.range_succ, List.filter_append,
      List.filterMap_append, hrange, ih, List.zipIdx_append, List.filter_append, List.map_append]
    by_cases h : p values.length <;> simp [h]

theorem filterMap_of_pairwise_lt {numbers : List Nat} (h : numbers.Pairwise (· < ·))
    (values : List α) : numbers.filterMap (values[·]?) =
      (values.zipIdx.filter fun entry => numbers.contains entry.2).map Prod.fst := by
  have hnumbers : numbers.filter (· < values.length) =
      (List.range values.length).filter numbers.contains := by
    refine eq_of_pairwise_lt (h.filter _) (List.pairwise_lt_range.filter _) fun i => ?_
    simp [and_comm]
  rw [← filterMap_filter_range, ← hnumbers, List.filterMap_filter]
  refine List.filterMap_congr fun i _ => ?_
  by_cases hi : i < values.length <;> simp [hi]

theorem pairwise_mergeSort_scan (m : CompoundIndex α) (keys : List String) :
    (m.scan keys).mergeSort.Pairwise (· < ·) := by
  have hnodup : (m.scan keys).Nodup := by
    have h : (m.scan keys).Pairwise fun x y => ¬ (y == x) = true :=
      pairwise_foldl_addUnless (m.search keys) List.Pairwise.nil
    exact h.imp fun hne heq => hne (by simp [heq])
  have hle : (m.scan keys).mergeSort.Pairwise (· ≤ ·) := List.pairwise_mergeSort' ..
  have hne : (m.scan keys).mergeSort.Nodup := (List.mergeSort_perm _ _).nodup_iff.2 hnodup
  exact hle.imp₂ (fun _ _ => lt_of_le_of_ne) hne

theorem lookUp_eq_get {m : CompoundIndex α} {q : Compound} {keys : List String}
    (h : ∀ key, key ∈ keys ↔ key ∈ q.simples.map Simple.key) : m.lookUp keys = m.get q := by
  rw [lookUp, filterMap_of_pairwise_lt (m.pairwise_mergeSort_scan keys), get]
  congr 1
  refine List.filter_congr fun entry _ => Bool.eq_iff_iff.2 ?_
  rw [List.contains_iff_mem, List.contains_iff_mem, List.mem_mergeSort, mem_scan,
    mem_search_congr h]

/-- After any run of insertions, of which those of empty compounds are refused and leave no trace, a
search returns the values of the compounds whose keys are all among those of the query: each
insertion once, in order, and whatever order the keys are looked up in. Compounds whose simple
selectors are all in the query are among them. -/
theorem get_ofPuts (entries : List (Compound × α)) :
    (∀ c value, (ofPuts entries).insert? c value = none ↔ c.isEmpty) ∧
    (ofPuts entries).size = (accepted entries).length ∧
    (∀ q, (ofPuts entries).get q =
      ((accepted entries).filter (·.1.keysWithin q)).map Prod.snd) ∧
    (∀ (q : Compound) (keys : List String), (∀ key, key ∈ keys ↔ key ∈ q.simples.map Simple.key) →
      (ofPuts entries).lookUp keys = (ofPuts entries).get q) ∧
    ∀ (q : Compound), ∀ entry ∈ accepted entries, (∀ s ∈ entry.1.simples, q.contains s) →
      entry.2 ∈ (ofPuts entries).get q := by
  have hholds := holds_ofPuts entries
  have hempty : ∀ entry ∈ accepted entries, ¬ entry.1.isEmpty := by
    intro entry hentry
    simpa using List.of_mem_filter hentry
  refine ⟨fun c value => insert?_eq_none_iff, ?_, hholds.get_eq hempty, fun q keys => lookUp_eq_get,
    ?_⟩
  · simp [size, hholds.values]
  · intro q entry hentry hq
    rw [hholds.get_eq hempty]
    exact List.mem_map_of_mem (List.mem_filter.2 ⟨hentry, Compound.keysWithin_of_contains hq⟩)

/-- With `.a.b`, an empty compound, `.c` and `.a.a` in this order, a search for `.b.a` that looks up
`.b` first finds the first and the last. -/
theorem get_ofPuts_reversed :
    let a : Simple := { kind := .className, name := "a" }
    let b : Simple := { kind := .className, name := "b" }
    let c : Simple := { kind := .className, name := "c" }
    let entries := [(Compound.ofSimples [a, b], 0), (.ofSimples [], 1), (.ofSimples [c], 2),
      (.ofSimples [a, a], 3)]
    let m := ofPuts entries
    m.size = 3 ∧ m.lookUp [".b", ".a"] = [0, 3] ∧ 0 ∈ m.get (.ofSimples [b, a]) := by
  intro a b c entries m
  obtain ⟨-, hsize, hget, hlookUp, hmem⟩ := get_ofPuts entries
  refine ⟨hsize, ?_, hmem (.ofSimples [b, a]) (.ofSimples [a, b], 0) ?_ (by decide)⟩
  · rw [hlookUp (.ofSimples [b, a]) [".b", ".a"] (fun _ => Iff.rfl), hget]
    decide
  · exact List.mem_cons_self

end CompoundIndex

end SelectorCalculus
