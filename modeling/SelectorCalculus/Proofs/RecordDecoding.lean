import SelectorCalculus.Proofs.BlockReading
import SelectorCalculus.Yaml.Decode
/-! What field decoders keep, record decoders keep, and written blocks decode entry by entry. -/

namespace SelectorCalculus.Yaml

variable {σ τ : Type} {type : String} {fields : List (String × Decoder σ)}

/-! ### Kept properties -/

/-- Every result of a decoding step has a property. -/
def Returns {α : Type} (P : α → Prop) (x : Except Refusal α) : Prop := ∀ a, x = .ok a → P a

namespace Returns

variable {α β : Type} {P : α → Prop} {Q : β → Prop}

theorem pure {a : α} (h : P a) : Returns P (Except.pure a) := by
  rintro _ ⟨⟩
  exact h

theorem throw (e : Refusal) : Returns P (Except.error e) := nofun

theorem bind {x : Except Refusal α} {f : α → Except Refusal β} (hx : Returns P x)
    (hf : ∀ a, P a → Returns Q (f a)) : Returns Q (x >>= f) := by
  cases x with
  | error e => exact throw e
  | ok a => exact hf a (hx a rfl)

theorem trivial (x : Except Refusal α) : Returns (fun _ => True) x := fun _ _ => True.intro

theorem foldlM {γ : Type} {f : α → γ → Except Refusal α} (hf : ∀ a c, P a → Returns P (f a c))
    {a : α} (ha : P a) (cs : List γ) : Returns P (cs.foldlM f a) := by
  induction cs generalizing a with
  | nil => exact pure ha
  | cons c cs ih =>
    rw [List.foldlM_cons]
    exact (hf a c ha).bind fun _ h => ih h

end Returns

/-- What a decoder makes of a record with a property has the property. -/
def Decoder.Keeps (P : σ → Prop) (decode : Decoder σ) : Prop :=
  ∀ n s, P s → Returns (P ·.1) (decode n s)

section Keeps

variable {P : σ → Prop}

theorem scalarDecoder_keeps {take : Meaning → String → σ → Except Refusal (Option σ)}
    (htake : ∀ m value s, P s → Returns (∀ s' ∈ ·, P s') (take m value s)) :
    (scalarDecoder type take).Keeps P := by
  intro n s hs
  cases n with
  | scalar line tag value =>
    refine (Returns.trivial _).bind fun m _ => ?_
    split
    · exact .pure hs
    · refine (htake _ value s hs).bind fun s' hs' => ?_
      split
      · exact .pure (hs' _ rfl)
      · exact .pure hs
  | sequence line tag items => exact .pure hs
  | mapping line tag entries =>
    rw [scalarDecoder]
    split <;> exact .pure hs

theorem wholeDecoder_keeps {set : Int → σ → σ}
    (hset : ∀ m n s, wholeOf? m = some n → P s → P (set n s)) : (wholeDecoder set).Keeps P :=
  scalarDecoder_keeps fun m _ s hs => .pure fun s' h => by
    obtain ⟨n, hn, rfl⟩ := Option.map_eq_some_iff.1 h
    exact hset m n s hn hs

theorem truthDecoder_keeps {set : Bool → σ → σ} (hset : ∀ b s, P s → P (set b s)) :
    (truthDecoder set).Keeps P :=
  scalarDecoder_keeps fun _ _ s hs => .pure fun s' h => by
    obtain ⟨b, -, rfl⟩ := Option.map_eq_some_iff.1 h
    exact hset b s hs

theorem choiceDecoder_keeps {α : Type} {choose : String → Except String α} {set : α → σ → σ}
    (hset : ∀ a s, P s → P (set a s)) : (choiceDecoder type choose set).Keeps P := by
  refine scalarDecoder_keeps fun _ value s hs => ?_
  split
  · next a _ => exact .pure fun s' h => Option.mem_some_iff.1 h ▸ hset a s hs
  · exact .throw _

theorem Decoder.Keeps.within {Q : τ → Prop} {get : τ → σ} {set : σ → τ → τ} {decode : Decoder σ}
    (h : decode.Keeps P) (hget : ∀ t, Q t → P (get t)) (hset : ∀ s t, P s → Q t → Q (set s t)) :
    (decode.within get set).Keeps Q := fun n t ht =>
  (h n (get t) (hget t ht)).bind fun _ hs => .pure (hset _ t hs ht)

theorem decodeFields_keeps (hfields : ∀ f ∈ fields, f.2.Keeps P) (entries : List (Node × Node))
    (taken : Option (List String)) {s : σ} (hs : P s) :
    Returns (P ·.1) (decodeFields type fields entries taken s) := by
  induction entries generalizing taken s with
  | nil => exact .pure hs
  | cons entry entries ih =>
    obtain ⟨k, v⟩ := entry
    rw [decodeFields]
    split
    · exact ih taken hs
    · refine (Returns.trivial _).bind fun (name, issues) _ => ?_
      cases name with
      | none => exact (ih taken hs).bind fun _ h => .pure h
      | some name =>
        dsimp only
        split
        · exact ih taken hs
        · split
          · next decode hlookup =>
            obtain ⟨before, after, rfl, -⟩ := List.lookup_eq_some_iff.1 hlookup
            have hdecode := hfields (name, decode) (by simp)
            exact (hdecode v s hs).bind fun _ h => (ih _ h).bind fun _ h => .pure h
          · exact (ih _ hs).bind fun _ h => .pure h

theorem decodeMapping_keeps (hfields : ∀ f ∈ fields, f.2.Keeps P) (depth : Nat)
    (entries : List (Node × Node)) (taken : Option (List String)) {s : σ} (hs : P s) :
    Returns (P ·.1) (decodeMapping type fields depth entries taken s) := by
  induction depth generalizing entries taken s with
  | zero => exact .pure hs
  | succ depth ih =>
    rw [decodeMapping]
    split
    · refine (decodeFields_keeps hfields entries taken hs).bind ?_
      rintro ⟨s, issues, taken⟩ h
      simp only
      split
      · exact .pure h
      · split
        · exact .throw _
        · refine (Returns.foldlM (P := fun r => P r.1) (fun _ _ h => ?_) h _).bind
            fun _ h => .pure h
          exact (ih _ _ h).bind fun _ h => .pure h
    · exact .pure hs

theorem recordDecoder_keeps (hfields : ∀ f ∈ fields, f.2.Keeps P) :
    (recordDecoder type fields).Keeps P := by
  have hnone : (scalarDecoder type fun _ _ _ => .ok none).Keeps P :=
    scalarDecoder_keeps fun _ _ _ _ => .pure (by simp)
  intro n s hs
  cases n with
  | scalar line tag value => exact hnone (.scalar line tag value) s hs
  | sequence line tag items => exact hnone (.sequence line tag items) s hs
  | mapping line tag entries =>
    exact (decodeMapping_keeps hfields _ entries none hs).bind fun _ h => .pure h

end Keeps

/-! ### Plain scalars -/

/-- The tag of a plain scalar agrees with its text. -/
theorem meaningOf_resolvePlain (value : String) : meaningOf (resolvePlain value).tag value =
    .ok (resolvePlain value) := by
  rw [meaningOf]
  cases h : resolvePlain value <;> simp [Meaning.tag]

theorem within_of_ok {get : τ → σ} {set : σ → τ → τ} {decode : Decoder σ} {n : Node} {t : τ} {s : σ}
    (h : decode n (get t) = .ok (s, [])) : decode.within get set n t = .ok (set s t, []) := by
  rw [Decoder.within, h]
  rfl

theorem scalarDecoder_plain {take : Meaning → String → σ → Except Refusal (Option σ)}
    {value : String} {s s' : σ} (line : Nat) (hvalue : resolvePlain value ≠ .nothing)
    (htake : take (resolvePlain value) value s = .ok (some s')) :
    scalarDecoder type take (.plain line value) s = .ok (s', []) := by
  rw [Node.plain, scalarDecoder, meaningOf_resolvePlain]
  simp only [bind, Except.bind, htake]
  rfl

theorem fieldName_plain {name : String} (line : Nat) (h : resolvePlain name = .text) :
    fieldName (.plain line name) = .ok (some name, []) := by
  have hdecode : textDecoder (fun name _ => some name) (.plain line name) (none : Option String) =
      .ok (some name, []) := scalarDecoder_plain line (by simp [h]) rfl
  rw [fieldName, hdecode]
  rfl

theorem isMerge_plain {name : String} (line : Nat) (h : resolvePlain name = .text) :
    (Node.plain line name).isMerge = false := by
  simp [Node.plain, Node.isMerge, h, Meaning.tag]

/-! ### Blocks -/

theorem decodeFields_plain {name : String} {decode : Decoder σ} {v : Node} {s s' : σ} (line : Nat)
    (h : resolvePlain name = .text) (hlookup : fields.lookup name = some decode)
    (hdecode : decode v s = .ok (s', [])) (entries : List (Node × Node)) :
    decodeFields type fields ((.plain line name, v) :: entries) none s =
      decodeFields type fields entries none s' := by
  rw [decodeFields, isMerge_plain line h, fieldName_plain line h]
  simp only [bind, Except.bind, Option.any_none, Option.map_none, hlookup, hdecode]
  cases decodeFields type fields entries none s' <;> rfl

namespace Block

/-- The keys of a block itself, in order. -/
def keys : Block → List String
  | nil => []
  | word key _ rest => key :: rest.keys
  | nested key _ rest => key :: rest.keys

/-- Set in order, the entries of a block take a record to another. -/
inductive Decodes (fields : List (String × Decoder σ)) : Block → σ → σ → Prop
  | nil {s} : Decodes fields nil s s
  | word {key value rest decode s t s'} (hlookup : fields.lookup key = some decode)
      (hdecode : ∀ line, decode (.plain line value) s = .ok (t, []))
      (hrest : Decodes fields rest t s') : Decodes fields (word key value rest) s s'
  | nested {key inner rest decode s t s'} (hlookup : fields.lookup key = some decode)
      (hdecode : ∀ line entries, inner.Describes entries →
        decode (.mapping line "!!map" entries) s = .ok (t, []))
      (hrest : Decodes fields rest t s') : Decodes fields (nested key inner rest) s s'

variable {b : Block} {entries : List (Node × Node)} {s s' : σ}

theorem Describes.keys (h : b.Describes entries) :
    ∀ e ∈ entries, ∃ line, ∃ key ∈ b.keys, e.1 = .plain line key := by
  induction b generalizing entries with
  | nil =>
    obtain rfl := h
    simp
  | word key value rest ih =>
    obtain ⟨l, m, tail, htail, rfl⟩ := h
    refine List.forall_mem_cons.2 ⟨⟨l, key, by simp [Block.keys], rfl⟩, fun e he => ?_⟩
    obtain ⟨line, k, hk, he⟩ := ih htail e he
    exact ⟨line, k, List.mem_cons_of_mem _ hk, he⟩
  | nested key inner rest _ ih =>
    obtain ⟨l, m, inside, tail, -, htail, rfl⟩ := h
    refine List.forall_mem_cons.2 ⟨⟨l, key, by simp [Block.keys], rfl⟩, fun e he => ?_⟩
    obtain ⟨line, k, hk, he⟩ := ih htail e he
    exact ⟨line, k, List.mem_cons_of_mem _ hk, he⟩

theorem duplicates_cons {key : String} (hkey : key ∉ b.keys) (h : b.Describes entries) (line : Nat)
    (v : Node) : duplicates ((.plain line key, v) :: entries) = duplicates entries := by
  have hfilter : entries.filter (fun e => (Node.plain line key).sameKey e.1) = [] := by
    refine List.filter_eq_nil_iff.2 fun e he => ?_
    obtain ⟨line', k, hk, heq⟩ := h.keys e he
    rw [heq]
    simp only [Node.plain, Node.sameKey, beq_iff_eq]
    rintro rfl
    exact hkey hk
  rw [duplicates, hfilter]
  rfl

theorem Describes.duplicates (h : b.Describes entries) (hkeys : b.keys.Nodup) :
    duplicates entries = [] := by
  induction b generalizing entries with
  | nil =>
    obtain rfl := h
    rfl
  | word key value rest ih =>
    obtain ⟨l, m, tail, htail, rfl⟩ := h
    obtain ⟨hkey, hrest⟩ := List.nodup_cons.1 hkeys
    rw [duplicates_cons hkey htail, ih htail hrest]
  | nested key inner rest _ ih =>
    obtain ⟨l, m, inside, tail, -, htail, rfl⟩ := h
    obtain ⟨hkey, hrest⟩ := List.nodup_cons.1 hkeys
    rw [duplicates_cons hkey htail, ih htail hrest]

theorem Decodes.decodeFields (hdecodes : b.Decodes fields s s') (h : b.Describes entries)
    (htext : ∀ key ∈ b.keys, resolvePlain key = .text) :
    decodeFields type fields entries none s = .ok (s', [], none) := by
  induction hdecodes generalizing entries with
  | nil =>
    obtain rfl := h
    rfl
  | word hlookup hdecode _ ih =>
    obtain ⟨l, m, tail, htail, rfl⟩ := h
    obtain ⟨hkey, htext⟩ := List.forall_mem_cons.1 htext
    rw [decodeFields_plain l hkey hlookup (hdecode m), ih htail htext]
  | nested hlookup hdecode _ ih =>
    obtain ⟨l, m, inside, tail, hinside, htail, rfl⟩ := h
    obtain ⟨hkey, htext⟩ := List.forall_mem_cons.1 htext
    rw [decodeFields_plain l hkey hlookup (hdecode m inside hinside), ih htail htext]

/-- The mapping of a block whose keys are distinct texts decodes as its entries do. -/
theorem Decodes.recordDecoder (hdecodes : b.Decodes fields s s') (hkeys : b.keys.Nodup)
    (htext : ∀ key ∈ b.keys, resolvePlain key = .text) (line : Nat) (h : b.Describes entries) :
    recordDecoder type fields (.mapping line "!!map" entries) s = .ok (s', []) := by
  have hmerge : entries.filter (·.1.isMerge) = [] := by
    refine List.filter_eq_nil_iff.2 fun e he => ?_
    obtain ⟨line', key, hkey, heq⟩ := h.keys e he
    simp [heq, isMerge_plain line' (htext key hkey)]
  rw [Yaml.recordDecoder, Node.height, decodeMapping, h.duplicates hkeys]
  simp only [hdecodes.decodeFields h htext, hmerge, bind, Except.bind, List.getLast?_nil]
  rfl

end Block

end SelectorCalculus.Yaml
