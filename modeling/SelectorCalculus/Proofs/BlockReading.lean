import SelectorCalculus.Proofs.BlockScanning
import SelectorCalculus.Yaml.Node
/-! The document of a written block is a mapping with its keys and values, in order and at every
depth. -/

namespace SelectorCalculus.Yaml

namespace Input

/-- The kinds of the tokens that are left. -/
def kinds (i : Input) : List TokenKind := i.tokens.map Token.kind

variable {i : Input} {k : TokenKind} {rest : List TokenKind}

theorem next?_of_kinds (h : i.kinds = k :: rest) : i.next? = some k := by
  rw [next?, ← List.head?_map]
  exact congrArg List.head? h

theorem kinds_skip (h : i.kinds = k :: rest) : i.skip.kinds = rest := by
  rw [kinds, skip, List.map_drop]
  exact congrArg (List.drop 1) h

theorem nextIsOneOf_of_kinds (h : i.kinds = k :: rest) (ks : List TokenKind) :
    i.nextIsOneOf ks = ks.contains k := by
  rw [nextIsOneOf, next?_of_kinds h, Option.any_some]

theorem properties?_of_kinds (h : i.kinds = k :: rest)
    (hk : ∀ name handle suffix, k ≠ .anchor name ∧ k ≠ .tag handle suffix) :
    i.properties? = some ({ line := i.line }, i) := by
  unfold properties?
  rw [next?_of_kinds h]
  split
  · next heq _ => exact absurd (Option.some.inj heq) (hk _ "" "").1
  · next heq _ => exact absurd (Option.some.inj heq) (hk "" _ _).2
  · next heq _ => exact absurd (Option.some.inj heq) (hk _ "" "").1
  · next heq _ => exact absurd (Option.some.inj heq) (hk "" _ _).2
  · rfl

end Input

/-- A plain scalar, whose tag says what it stands for. -/
def Node.plain (line : Nat) (value : String) : Node := .scalar line (resolvePlain value).tag value

namespace Block

/-- The entries of a mapping have the keys and values of a block. -/
def Describes : Block → List (Node × Node) → Prop
  | nil, entries => entries = []
  | word key value rest, entries => ∃ l m tail, rest.Describes tail ∧
      entries = (.plain l key, .plain m value) :: tail
  | nested key inner rest, entries => ∃ l m inside tail, inner.Describes inside ∧
      rest.Describes tail ∧ entries = (.plain l key, .mapping m "!!map" inside) :: tail

end Block

variable {i : Input} {w : String} {fuel : Nat} {rest : List TokenKind} {b : Block}

theorem ne_merge_of_isWord (h : isWord w) : w ≠ "<<" := by
  rintro rfl
  exact absurd h (by decide)

theorem readNode_word (hw : isWord w) (h : i.kinds = .scalar w true :: rest)
    (inBlock indentless : Bool) : ∃ l i', i'.kinds = rest ∧
      readNode (fuel + 1) inBlock indentless i = some (.plain l w, i') := by
  refine ⟨i.line + 1, i.skip, Input.kinds_skip h, ?_⟩
  have hnext := Input.next?_of_kinds h
  rw [readNode, hnext]
  simp only [Input.properties?_of_kinds h (by simp), hnext, bind, Option.bind]
  simp [Properties.scalar, Properties.tagOr, ne_merge_of_isWord hw, Input.anchored, Node.plain]

theorem readNode_mapping {i' : Input} {entries : List (Node × Node)}
    (h : i.kinds = .blockMappingStart :: rest)
    (hread : readBlockEntries fuel i.skip = some (entries, i')) (indentless : Bool) :
    readNode (fuel + 1) true indentless i = some (.mapping (i.line + 1) "!!map" entries, i') := by
  have hnext := Input.next?_of_kinds h
  rw [readNode, hnext]
  simp only [Input.properties?_of_kinds h (by simp), hnext, bind, Option.bind]
  simp [hread, Properties.tagOr]

theorem readBlockPart_word (fuel : Nat) (hw : isWord w) {k : TokenKind}
    (h : i.kinds = k :: .scalar w true :: rest) : ∃ l i', i'.kinds = rest ∧
      readBlockPart (fuel + 2) i = some (.plain l w, i') := by
  have hskip := Input.kinds_skip h
  rw [readBlockPart, if_neg (by simp [Input.nextIsOneOf_of_kinds hskip])]
  exact readNode_word hw hskip true true

theorem readBlockEntries_of_parts {i₁ i₂ i₃ : Input} {n m : Node} {entries : List (Node × Node)}
    (h : i.kinds = .key :: rest) (hkey : readBlockPart fuel i = some (n, i₁))
    (hmark : i₁.next? = some .value) (hvalue : readBlockPart fuel i₁ = some (m, i₂))
    (hrest : readBlockEntries fuel i₂ = some (entries, i₃)) :
    readBlockEntries (fuel + 1) i = some ((n, m) :: entries, i₃) := by
  rw [readBlockEntries, Input.next?_of_kinds h]
  simp [hkey, hmark, hvalue, hrest]

theorem readBlockEntries_of_kinds (hb : b.isPlain) (hfuel : b.kinds.length + 3 ≤ fuel)
    (h : i.kinds = b.kinds ++ .blockEnd :: rest) :
    ∃ entries i', b.Describes entries ∧ i'.kinds = rest ∧
      readBlockEntries fuel i = some (entries, i') := by
  induction b generalizing fuel i rest with
  | nil =>
    obtain ⟨n, rfl⟩ := Nat.exists_eq_add_of_le' hfuel
    refine ⟨[], i.skip, rfl, Input.kinds_skip h, ?_⟩
    rw [Block.kinds, List.length_nil, Nat.zero_add, readBlockEntries, Input.next?_of_kinds h]
  | word key value more ih =>
    simp only [Block.isPlain, Bool.and_eq_true] at hb
    obtain ⟨⟨hkey, hvalue⟩, hmore⟩ := hb
    simp only [Block.kinds, List.cons_append, List.nil_append, List.length_cons] at hfuel h
    obtain ⟨n, rfl⟩ := Nat.exists_eq_add_of_le' (by omega : 3 ≤ fuel)
    obtain ⟨l, i₁, h₁, hpart₁⟩ := readBlockPart_word n (isKey_iff.1 hkey).1 h
    obtain ⟨m, i₂, h₂, hpart₂⟩ := readBlockPart_word n hvalue h₁
    obtain ⟨tail, i₃, htail, h₃, hread⟩ := ih hmore (by omega : _ ≤ n + 2) h₂
    exact ⟨_, i₃, ⟨l, m, tail, htail, rfl⟩, h₃,
      readBlockEntries_of_parts h hpart₁ (Input.next?_of_kinds h₁) hpart₂ hread⟩
  | nested key inner more ihInner ihMore =>
    simp only [Block.isPlain, Bool.and_eq_true] at hb
    obtain ⟨⟨⟨hkey, -⟩, hinner⟩, hmore⟩ := hb
    simp only [Block.kinds, List.append_assoc, List.cons_append, List.nil_append,
      List.length_append, List.length_cons] at hfuel h
    obtain ⟨n, rfl⟩ := Nat.exists_eq_add_of_le' (by omega : 3 ≤ fuel)
    obtain ⟨l, i₁, h₁, hpart₁⟩ := readBlockPart_word n (isKey_iff.1 hkey).1 h
    have hopen := Input.kinds_skip h₁
    obtain ⟨inside, i₂, hinside, h₂, hentries⟩ := ihInner hinner (by omega : _ ≤ n)
      (Input.kinds_skip hopen)
    have hpart₂ : readBlockPart (n + 2) i₁ =
        some (.mapping (i₁.skip.line + 1) "!!map" inside, i₂) := by
      rw [readBlockPart, if_neg (by simp [Input.nextIsOneOf_of_kinds hopen])]
      exact readNode_mapping hopen hentries true
    obtain ⟨tail, i₃, htail, h₃, hread⟩ := ihMore hmore (by omega : _ ≤ n + 2) h₂
    exact ⟨_, i₃, ⟨l, _, inside, tail, hinside, htail, rfl⟩, h₃,
      readBlockEntries_of_parts h hpart₁ (Input.next?_of_kinds h₁) hpart₂ hread⟩

theorem document_text (hb : b.isPlain) (hne : b ≠ .nil) : ∃ line entries, b.Describes entries ∧
    (Source.ofChars? (b.text 0)).bind (fun source => Document.ofTokens? (tokensOf source)) =
      some (.root (.mapping line "!!map" entries)) := by
  rw [ofChars?_eq (isBlockChar_text hb 0), Option.bind_some]
  have hkinds := Scan.kinds_tokensOf hb hne
  generalize tokensOf (place 0 0 (b.text 0)) = tokens at hkinds
  have hopen :
      Input.kinds { tokens } = .blockMappingStart :: (b.kinds ++ [.blockEnd, .streamEnd]) :=
    hkinds
  have hlength : tokens.length = b.kinds.length + 3 := by
    have := congrArg List.length hkinds
    simpa using this
  have hnext := Input.next?_of_kinds hopen
  obtain ⟨entries, i', hentries, hi', hread⟩ := readBlockEntries_of_kinds hb
    (by omega : _ ≤ 2 * tokens.length + 1) (Input.kinds_skip hopen)
  refine ⟨Input.line { tokens } + 1, entries, hentries, ?_⟩
  have hroot := readNode_mapping hopen hread false
  have hend : i'.seesAhead := by
    have hlast : i'.tokens.getLast?.map Token.kind = some .streamEnd := by
      rw [← List.getLast?_map]
      exact congrArg List.getLast? hi'
    obtain ⟨token, htoken, hkind⟩ := Option.map_eq_some_iff.1 hlast
    simp [Input.seesAhead, htoken, hkind]
  rw [Document.ofTokens?, hnext]
  simp [hroot, Document.ofTokens?.finish, hend]

end SelectorCalculus.Yaml
