import SelectorCalculus.Yaml.Token
import Mathlib.Data.List.Infix
/-! The tokens of a written block are those of its entries, each block opened before its first entry
and closed after its last. -/

namespace SelectorCalculus.Yaml

/-! ### Blocks -/

def isWordChar (c : Char) : Bool := c.isAlphanum || c == '_'

def isWord (w : String) : Bool := w.toList ≠ [] && w.toList.all isWordChar

/-- A word that may be a key: the scanner forgets a longer one. -/
def isKey (w : String) : Bool := isWord w && w.toList.length ≤ 1024

/-- A mapping of words, in order. -/
inductive Block where
  | nil
  | word (key value : String) (rest : Block)
  | nested (key : String) (inner rest : Block)

def indentation (depth : Nat) : List Char := List.replicate (4 * depth) ' '

namespace Block

/-- A block as it is written at a depth. -/
def text (depth : Nat) : Block → List Char
  | nil => []
  | word key value rest =>
    indentation depth ++ (key.toList ++ ':' :: ' ' :: (value.toList ++ '\n' :: rest.text depth))
  | nested key inner rest =>
    indentation depth ++ (key.toList ++ ':' :: '\n' :: (inner.text (depth + 1) ++ rest.text depth))

/-- The tokens of the entries of a block. -/
def kinds : Block → List TokenKind
  | nil => []
  | word key value rest => [.key, .scalar key true, .value, .scalar value true] ++ rest.kinds
  | nested key inner rest => [.key, .scalar key true, .value, .blockMappingStart] ++
      (inner.kinds ++ [.blockEnd] ++ rest.kinds)

def isNil : Block → Bool
  | nil => true
  | word .. => false
  | nested .. => false

/-- Keys and values are words, and no block inside is empty. -/
def isPlain : Block → Bool
  | nil => true
  | word key value rest => isKey key && isWord value && rest.isPlain
  | nested key inner rest => isKey key && !inner.isNil && inner.isPlain && rest.isPlain

end Block

/-! ### Characters of words -/

section Characters

variable {c : Char}

theorem ne_of_isWordChar {d : Char} (h : isWordChar c) (hd : isWordChar d = false) : c ≠ d := by
  rintro rfl
  simp [h] at hd

theorem toNat_of_isWordChar (h : isWordChar c) : 48 ≤ c.toNat ∧ c.toNat ≤ 122 := by
  have hranges : isWordChar c = (decide (c.val ≥ 65 ∧ c.val ≤ 90) || (c.val ≥ 97 && c.val ≤ 122) ||
    (c.val ≥ 48 && c.val ≤ 57) || c == '_') := rfl
  simp only [hranges, Bool.or_eq_true, Bool.and_eq_true, decide_eq_true_eq, beq_iff_eq,
    UInt32.le_iff_toNat_le, ge_iff_le] at h
  change (((65 ≤ c.toNat ∧ c.toNat ≤ 90) ∨ (97 ≤ c.toNat ∧ c.toNat ≤ 122)) ∨
    (48 ≤ c.toNat ∧ c.toNat ≤ 57)) ∨ c = '_' at h
  rcases h with ((h | h) | h) | rfl
  · omega
  · omega
  · omega
  · decide

theorem isBreak_of_isWordChar (h : isWordChar c) : isBreak c = false := by
  have hc := toNat_of_isWordChar h
  simp only [isBreak, Bool.or_eq_false_iff, beq_eq_false_iff_ne]
  exact ⟨⟨ne_of_isWordChar h rfl, by omega⟩, by omega⟩

theorem isBlank_of_isWordChar (h : isWordChar c) : isBlank c = false := by
  simp only [isBlank, Bool.or_eq_false_iff, beq_eq_false_iff_ne]
  exact ⟨ne_of_isWordChar h rfl, ne_of_isWordChar h rfl⟩

theorem documentMark?_of_isWordChar (h : isWordChar c) (line column : Nat) (rest : Source) :
    Source.documentMark? (⟨c, line, column⟩ :: rest) = none := by
  have hdash : c ≠ '-' := ne_of_isWordChar h rfl
  have hdot : c ≠ '.' := ne_of_isWordChar h rfl
  unfold Source.documentMark?
  split
  · next heq =>
    obtain ⟨rfl, rfl⟩ := List.cons_eq_cons.1 heq
    simp [hdash, hdot]
  · rfl

end Characters

theorem isWord_iff {w : String} : isWord w ↔ w.toList ≠ [] ∧ ∀ c ∈ w.toList, isWordChar c := by
  simp [isWord]

theorem exists_cons_of_isWord {w : String} (h : isWord w) :
    ∃ c cs, w.toList = c :: cs ∧ isWordChar c ∧ ∀ d ∈ cs, isWordChar d := by
  obtain ⟨hne, hall⟩ := isWord_iff.1 h
  obtain ⟨c, cs, hw⟩ := List.exists_cons_of_ne_nil hne
  exact ⟨c, cs, hw, List.forall_mem_cons.1 (hw ▸ hall)⟩

theorem isKey_iff {w : String} : isKey w ↔ isWord w ∧ w.toList.length ≤ 1024 := by
  simp [isKey]

/-! ### Places -/

section Places

variable (line column : Nat)

theorem place_cons {c : Char} (hc : isBreak c = false) (cs : List Char) :
    place line column (c :: cs) = ⟨c, line, column⟩ :: place line (column + 1) cs := by
  rw [place, hc]
  rfl

theorem place_break (cs : List Char) :
    place line column ('\n' :: cs) = ⟨'\n', line, column⟩ :: place (line + 1) 0 cs := rfl

theorem place_append {w : List Char} (hw : ∀ c ∈ w, isBreak c = false) (cs : List Char) :
    place line column (w ++ cs) = place line column w ++ place line (column + w.length) cs := by
  induction w generalizing column with
  | nil => rfl
  | cons c w ih =>
    obtain ⟨hc, hw⟩ := List.forall_mem_cons.1 hw
    rw [List.cons_append, place_cons _ _ hc, place_cons _ _ hc, ih _ hw, List.cons_append,
      List.length_cons, Nat.add_assoc, Nat.add_comm 1]

end Places

/-! ### Plain text -/

section PlainText

variable {m : Int} (line column : Nat)

theorem plainText_word {w : List Char} (hw : ∀ c ∈ w, isWordChar c) (cs : List Char) :
    plainText false m (place line column (w ++ cs)) .none =
      (plainText false m (place line (column + w.length) cs) .none).map
        fun (text, broken, rest) => (w ++ text, broken, rest) := by
  induction w generalizing column with
  | nil => exact Option.map_id'.symm
  | cons c w ih =>
    obtain ⟨hc, hw⟩ := List.forall_mem_cons.1 hw
    have hends (rest : Source) : endsPlain false m .none ⟨c, line, column⟩ rest = false := by
      simp [endsPlain, Gap.isBreaks, Gap.isNone, documentMark?_of_isWordChar hc,
        ne_of_isWordChar hc (d := ':') rfl]
    rw [List.cons_append, place_cons _ _ (isBreak_of_isWordChar hc), plainText,
      isBlank_of_isWordChar hc, isBreak_of_isWordChar hc, hends, ih _ hw]
    simp [Gap.fold, Function.comp_def, Nat.add_assoc, Nat.add_comm 1]

theorem plainText_colon {cs : List Char} (hgap : (place line (column + 1) cs).atGap) :
    plainText false m (place line column (':' :: cs)) .none =
      some ([], false, place line column (':' :: cs)) := by
  rw [place_cons _ _ rfl, plainText]
  simp [endsPlain, hgap, isBlank, isBreak, Gap.isBreaks]

/-- After the end of a line, a plain text ends where a line starts that is not indented enough. -/
theorem plainText_break {n : Nat} (hn : (n : Int) < m) {cs : List Char}
    (hcs : ∀ c ∈ cs.head?, isWordChar c) :
    plainText false m (place line column ('\n' :: List.replicate n ' ' ++ cs)) .none =
      some ([], true, place (line + 1) n cs) := by
  have hblanks (k j : Nat) (hk : ((k + j : Nat) : Int) < m) :
      plainText false m (place (line + 1) k (List.replicate j ' ' ++ cs)) (.breaks (some '\n') []) =
        some ([], true, place (line + 1) (k + j) cs) := by
    induction j generalizing k with
    | zero =>
      cases cs with
      | nil => rfl
      | cons c cs =>
        have hc := hcs c rfl
        simp only [List.replicate_zero, List.nil_append, Nat.add_zero] at hk ⊢
        rw [place_cons _ _ (isBreak_of_isWordChar hc), plainText, isBlank_of_isWordChar hc,
          isBreak_of_isWordChar hc]
        simp [endsPlain, Gap.isBreaks, hk]
    | succ j ih =>
      rw [List.replicate_succ, List.cons_append, place_cons _ _ rfl, plainText]
      simpa [isBlank, Gap.add, isBreak, Nat.add_assoc, Nat.add_comm 1] using
        ih (k + 1) (by omega)
  rw [List.cons_append, place_break, plainText]
  simpa [isBlank, isBreak, Gap.add] using hblanks 0 n (by omega)

end PlainText

namespace Scan

/-! ### Runs -/

/-- Whatever line was reached before, scanning on from the first place comes past the second. -/
def Reaches (a b : Source × Scan) : Prop :=
  ∀ line, ∃ line', run 0 line a.1 a.2 = run 0 line' b.1 b.2

namespace Reaches

variable {a b c : Source × Scan}

theorem refl (a : Source × Scan) : Reaches a a := fun line => ⟨line, rfl⟩

theorem trans (hab : Reaches a b) (hbc : Reaches b c) : Reaches a c := fun line =>
  let ⟨line', hab⟩ := hab line
  let ⟨line'', hbc⟩ := hbc line'
  ⟨line'', hab.trans hbc⟩

end Reaches

theorem run_length_append (taken more : Source) (s : Scan) (line : Nat) :
    ∃ line', run taken.length line (taken ++ more) s = run 0 line' more s := by
  induction taken generalizing line with
  | nil => exact ⟨line, rfl⟩
  | cons p taken ih => exact ih p.line

variable {s s' : Scan} {p : Placed} {rest more : Source}

theorem reaches_of_step? (h : s.step? p rest = some (s', more)) (hmore : more <:+ rest) :
    Reaches (p :: rest, s) (more, s') := by
  obtain ⟨taken, rfl⟩ := hmore
  intro line
  have hlength : (taken ++ more).length - more.length = taken.length := by
    rw [List.length_append, Nat.add_sub_cancel]
  obtain ⟨line', hrun⟩ := run_length_append taken more s' p.line
  exact ⟨line', by rw [run, h]; simp only [hlength, hrun]⟩

theorem reaches_blanks (s : Scan) (line column n : Nat) (cs : List Char) :
    Reaches (place line column (List.replicate n ' ' ++ cs), s)
      (place line (column + n) cs, s) := by
  induction n generalizing column with
  | zero => exact .refl _
  | succ n ih =>
    rw [List.replicate_succ, List.cons_append, place_cons _ _ rfl, ← Nat.add_assoc,
      Nat.add_right_comm]
    exact (reaches_of_step? (by rw [step?, if_pos (.inl rfl)]) List.suffix_rfl).trans (ih _)

/-! ### Open blocks -/

/-- The column of a block at a depth, which is the number of blocks that are open in it. -/
def column : Nat → Int
  | 0 => -1
  | depth + 1 => 4 * depth

/-- The columns of the blocks around a depth, innermost first. -/
def around : Nat → List Int
  | 0 => []
  | depth + 1 => column depth :: around depth

/-- A scan inside so many open blocks, with no key at hand. -/
def inside (tokens : List Token) (depth : Nat) (keyAllowed : Bool) : Scan :=
  { tokens, indent := column depth, outer := around depth, keyAllowed }

theorem column_succ (depth : Nat) : column (depth + 1) = (4 * depth : Nat) := by simp [column]

theorem column_lt_column {i j : Nat} : column i < column j ↔ i < j := by
  cases i <;> cases j <;> simp only [column] <;> omega

theorem unrollFrom_of_le {k indent : Int} (h : indent ≤ k) (line : Nat) (outer : List Int) :
    unrollFrom k line indent outer = ([], indent, outer) := by
  cases outer with
  | nil => rfl
  | cons next outer => rw [unrollFrom, if_neg (by omega)]

theorem unrollFrom_column (i d line : Nat) :
    unrollFrom (column i) line (column d) (around d) =
      (List.replicate (d - i) ⟨.blockEnd, line⟩, column (min d i), around (min d i)) := by
  induction d with
  | zero => simp [unrollFrom, around]
  | succ d ih =>
    rw [around, unrollFrom]
    by_cases h : i < d + 1
    · rw [if_pos (column_lt_column.2 h), ih, Nat.min_eq_right (by omega : i ≤ d),
        Nat.min_eq_right (by omega : i ≤ d + 1), Nat.succ_sub (by omega : i ≤ d)]
      rfl
    · rw [if_neg (fun hlt => h (column_lt_column.1 hlt)), Nat.min_eq_left (by omega),
        Nat.sub_eq_zero_of_le (by omega)]
      rfl

theorem unroll_inside (tokens : List Token) (d i line : Nat) (keyAllowed : Bool) :
    (inside tokens d keyAllowed).unroll (column i) line =
      inside (tokens ++ List.replicate (d - i) ⟨.blockEnd, line⟩) (min d i) keyAllowed := by
  simp only [unroll, inside, unrollFrom_column, if_true]

theorem unroll_of_le {k : Int} (h : s.indent ≤ k) (line : Nat) : s.unroll k line = s := by
  unfold unroll
  split
  · simp [unrollFrom_of_le h]
  · rfl

theorem step?_of_isWordChar {c : Char} {line k : Nat} (h : isWordChar c) :
    s.step? ⟨c, line, k⟩ rest = (s.unroll k line).plain? ⟨c, line, k⟩ rest := by
  have hne {d : Char} (hd : isWordChar d = false) : c ≠ d := ne_of_isWordChar h hd
  have hnat := toNat_of_isWordChar h
  have hmark : Source.documentMark? (⟨c, line, k⟩ :: rest) = none :=
    documentMark?_of_isWordChar h _ _ _
  have hstart (s : Scan) : s.startsPlain ⟨c, line, k⟩ rest := by
    have : c ∉ indicators := fun hmem => by
      have hall : indicators.all (isWordChar · = false) := by decide
      have := List.all_eq_true.1 hall _ hmem
      simp [h] at this
    simp [startsPlain, this]
  have hstep : s.step? ⟨c, line, k⟩ rest = s.token? ⟨c, line, k⟩ rest := by
    rw [step?, if_neg (by simp [hne (d := ' ') rfl]; omega), if_neg (by simp [hne (d := '\t') rfl]),
      isBreak_of_isWordChar h, if_neg (by simp), if_neg (hne rfl)]
  rw [hstep, token?]
  simp only [hmark]
  rw [if_neg (by simp [hne (d := '%') rfl]), if_neg (hne rfl), if_neg (hne rfl), if_neg (hne rfl),
    if_neg (hne rfl), if_neg (hne rfl), if_neg (by simp [hne (d := '-') rfl]),
    if_neg (by simp [hne (d := '?') rfl]), if_neg (by simp [hne (d := ':') rfl]), if_neg (hne rfl),
    if_neg (hne rfl), if_neg (hne rfl),
    if_neg (by simp [hne (d := '|') rfl, hne (d := '>') rfl]), if_neg (by omega), if_neg (hne rfl),
    if_pos (hstart _)]

/-! ### Keys and values -/

variable {tokens : List Token} {line k d j : Nat} {key value : String} {cs : List Char}

/-- A scan past a word that may be a key. -/
def noting (tokens : List Token) (depth : Nat) (key : String) (line k : Nat) : Scan :=
  { inside (tokens ++ [⟨.scalar key true, line⟩]) depth false with
    keys := [some { number := tokens.length, required := column depth == k, line, column := k }] }

theorem reaches_noting (hkey : isWord key) (hgap : ∀ line k, (place line k cs).atGap) :
    Reaches (place line (4 * j) (key.toList ++ ':' :: cs), inside tokens d true)
      (place line (4 * j + key.toList.length) (':' :: cs),
        noting (tokens ++ List.replicate (d - (j + 1)) ⟨.blockEnd, line⟩) (min d (j + 1)) key line
          (4 * j)) := by
  obtain ⟨c, w, hw, hc, hchars⟩ := exists_cons_of_isWord hkey
  have hplain := plainText_word (m := column (min d (j + 1)) + 1) line (4 * j)
    (isWord_iff.1 hkey).2 (':' :: cs)
  simp only [plainText_colon _ _ (hgap _ _), Option.map_some, List.append_nil] at hplain
  have hsuffix : place line (4 * j + key.toList.length) (':' :: cs) <:+
      place line (4 * j + 1) (w ++ ':' :: cs) := by
    have hlength : 4 * j + key.toList.length = 4 * j + 1 + w.length := by
      rw [hw, List.length_cons, Nat.add_assoc, Nat.add_comm 1]
    rw [place_append _ _ fun c hc => isBreak_of_isWordChar (hchars c hc), hlength]
    exact List.suffix_append _ _
  have hcons : place line (4 * j) (key.toList ++ ':' :: cs) =
      ⟨c, line, 4 * j⟩ :: place line (4 * j + 1) (w ++ ':' :: cs) := by
    rw [hw, List.cons_append, place_cons _ _ (isBreak_of_isWordChar hc)]
  have hcolumn := (column_succ j).symm
  rw [hcons] at hplain ⊢
  refine reaches_of_step? ?_ hsuffix
  rw [step?_of_isWordChar hc, hcolumn, unroll_inside, plain?]
  simp only [inside, Nat.lt_irrefl, decide_false, hplain]
  simp [atom?, noteKey?, dropKey?, push, noting, inside, hcolumn]

/-- The kinds of the tokens on a line, with the line. -/
def onLine (line : Nat) (kinds : List TokenKind) : List Token := kinds.map (⟨·, line⟩)

theorem step?_colon (hs : s.indent ≤ k) (hrest : rest.atGap) :
    s.step? ⟨':', line, k⟩ rest = (s.value? ⟨':', line, k⟩).map (·, rest) := by
  have hmark : Source.documentMark? (⟨':', line, k⟩ :: rest) = none := by
    unfold Source.documentMark?
    split
    · next heq =>
      obtain ⟨rfl, -⟩ := List.cons_eq_cons.1 heq
      simp
    · rfl
  rw [step?, if_neg (by simp), if_neg (by simp), if_neg (by simp [isBreak]), if_neg (by simp),
    token?]
  simp only [unroll_of_le hs, hmark]
  rw [if_neg (by simp), if_neg (by decide), if_neg (by decide), if_neg (by decide),
    if_neg (by decide), if_neg (by decide), if_neg (by simp), if_neg (by simp),
    if_pos ⟨trivial, .inr hrest⟩]

theorem value?_noting (hlength : key.toList.length ≤ 1024) (hj : j ≤ d) :
    (noting tokens (min d (j + 1)) key line (4 * j)).value?
      ⟨':', line, 4 * j + key.toList.length⟩ =
    some (inside (tokens ++ onLine line ((if d ≤ j then [.blockMappingStart] else []) ++
      [.key, .scalar key true, .value])) (j + 1) false) := by
  rcases Nat.lt_or_ge j d with hlt | hge
  · rw [Nat.min_eq_right hlt, if_neg (by omega)]
    simp [value?, validKey?, noting, inside, insert, roll, push, onLine, column_succ, hlength]
  · obtain rfl : d = j := Nat.le_antisymm hge hj
    have hcolumn : column d < 4 * d := column_lt_column.2 d.lt_succ_self
    simp [value?, validKey?, noting, inside, insert, roll, push, onLine, column_succ, hlength,
      around, hcolumn]

/-- The tokens with which a line begins at one depth when another is reached. -/
def turn (j d : Nat) : List TokenKind :=
  List.replicate (d - (j + 1)) .blockEnd ++ if d ≤ j then [.blockMappingStart] else []

theorem reaches_key (hkey : isKey key) (hgap : ∀ line k, (place line k cs).atGap) (hj : j ≤ d) :
    Reaches (place line 0 (indentation j ++ (key.toList ++ ':' :: cs)), inside tokens d true)
      (place line (4 * j + key.toList.length + 1) cs,
        inside (tokens ++ onLine line (turn j d ++ [.key, .scalar key true, .value])) (j + 1)
          false) := by
  obtain ⟨hword, hlength⟩ := isKey_iff.1 hkey
  have hblanks := reaches_blanks (inside tokens d true) line 0 (4 * j) (key.toList ++ ':' :: cs)
  rw [Nat.zero_add] at hblanks
  refine (hblanks.trans (reaches_noting hword hgap)).trans ?_
  rw [place_cons _ _ rfl]
  refine reaches_of_step? ?_ List.suffix_rfl
  have hle : column (min d (j + 1)) ≤ (4 * j + key.toList.length : Nat) := by
    have : ¬ column (j + 1) < column (min d (j + 1)) := by
      rw [column_lt_column]
      omega
    rw [column_succ] at this
    omega
  rw [step?_colon hle (hgap _ _), value?_noting hlength hj, Option.map_some]
  simp [turn, onLine]

/-- What can follow a block at a depth: nothing, or a line that is not deeper. -/
def Follows (j : Nat) (cs : List Char) : Prop :=
  cs = [] ∨ ∃ i c rest, i ≤ j ∧ isWordChar c ∧ cs = indentation i ++ c :: rest

theorem reaches_value (hvalue : isWord value) (hk : 4 * j ≤ k) (hcs : Follows j cs) :
    Reaches (place line k (' ' :: (value.toList ++ '\n' :: cs)), inside tokens (j + 1) false)
      (place (line + 1) 0 cs,
        inside (tokens ++ onLine line [.scalar value true]) (j + 1) true) := by
  obtain ⟨c, w, hw, hc, hchars⟩ := exists_cons_of_isWord hvalue
  have hunroll : (inside tokens (j + 1) false).unroll (k + 1 : Nat) line =
      inside tokens (j + 1) false :=
    unroll_of_le (by simp only [inside, column_succ]; omega) line
  have htaken (n : Nat) (hn : n ≤ 4 * j) (rest : List Char)
      (hrest : ∀ c ∈ rest.head?, isWordChar c) :
      Reaches (place line (k + 1) (value.toList ++ '\n' :: (List.replicate n ' ' ++ rest)),
        inside tokens (j + 1) false) (place (line + 1) n rest,
          inside (tokens ++ onLine line [.scalar value true]) (j + 1) true) := by
    have hplain := plainText_word (m := column (j + 1) + 1) line (k + 1) (isWord_iff.1 hvalue).2
      ('\n' :: (List.replicate n ' ' ++ rest))
    rw [← List.cons_append, plainText_break _ _ (by rw [column_succ]; omega) hrest] at hplain
    simp only [Option.map_some, List.append_nil, List.cons_append] at hplain
    have hcons (ds : List Char) : place line (k + 1) (value.toList ++ ds) =
        ⟨c, line, k + 1⟩ :: place line (k + 1 + 1) (w ++ ds) := by
      rw [hw, List.cons_append, place_cons _ _ (isBreak_of_isWordChar hc)]
    rw [hcons] at hplain ⊢
    refine reaches_of_step? ?_ ?_
    · rw [step?_of_isWordChar hc, hunroll, plain?]
      simp only [inside, Nat.lt_irrefl, decide_false, hplain]
      simp [atom?, noteKey?, push, onLine]
    · rw [place_append _ _ fun c hc => isBreak_of_isWordChar (hchars c hc), place_break,
        place_append _ _ (by simp [isBreak]), List.length_replicate, Nat.zero_add]
      exact ((List.suffix_append _ _).trans (List.suffix_cons _ _)).trans (List.suffix_append _ _)
  rw [place_cons _ _ rfl]
  refine (reaches_of_step? (by rw [step?, if_pos (.inl rfl)]) List.suffix_rfl).trans ?_
  obtain rfl | ⟨i, d, rest, hi, hd, rfl⟩ := hcs
  · exact htaken 0 (Nat.zero_le _) [] (by simp)
  · intro l
    obtain ⟨l', hrun⟩ := htaken (4 * i) (by omega) (d :: rest) (by simpa using hd) l
    obtain ⟨l'', hblanks⟩ := reaches_blanks
      (inside (tokens ++ onLine line [.scalar value true]) (j + 1) true) (line + 1) 0 (4 * i)
      (d :: rest) l'
    refine ⟨l', hrun.trans ?_⟩
    rw [indentation, hblanks, Nat.zero_add, place_cons _ _ (isBreak_of_isWordChar hd)]
    rfl

/-! ### Whole blocks -/

theorem Follows.mono {i : Nat} (h : Follows i cs) (hij : i ≤ j) : Follows j cs :=
  h.imp_right fun ⟨n, c, rest, hn, hc, hcs⟩ => ⟨n, c, rest, hn.trans hij, hc, hcs⟩

theorem follows_key (hkey : isKey key) : Follows j (indentation j ++ (key.toList ++ cs)) := by
  obtain ⟨c, w, hw, hc, -⟩ := exists_cons_of_isWord (isKey_iff.1 hkey).1
  exact .inr ⟨j, c, w ++ cs, le_rfl, hc, by rw [hw, List.cons_append]⟩

theorem follows_text {b : Block} (hb : b.isPlain) (hcs : Follows j cs) :
    Follows j (b.text j ++ cs) := by
  cases b with
  | nil => exact hcs
  | word key value rest =>
    simp only [Block.isPlain, Bool.and_eq_true] at hb
    simp only [Block.text, List.append_assoc]
    exact follows_key hb.1.1
  | nested key inner rest =>
    simp only [Block.isPlain, Bool.and_eq_true] at hb
    simp only [Block.text, List.append_assoc]
    exact follows_key hb.1.1.1

theorem turn_self_succ (j : Nat) : turn j (j + 1) = [] := by simp [turn]

theorem turn_self (j : Nat) : turn j j = [.blockMappingStart] := by simp [turn]

theorem turn_of_lt (h : j + 1 < d) : turn j d = turn (j + 1) d ++ [.blockEnd] := by
  obtain ⟨n, rfl⟩ := Nat.exists_eq_add_of_lt h
  simp only [turn, if_neg (by omega : ¬ j + 1 + n + 1 ≤ j),
    if_neg (by omega : ¬ j + 1 + n + 1 ≤ j + 1), List.append_nil, ← List.replicate_succ']
  congr 1
  omega

theorem kind_onLine (line : Nat) (ks : List TokenKind) : (onLine line ks).map Token.kind = ks := by
  simp [onLine, Function.comp_def]

/-- The lines of a block give its entries, up to the blocks at its end that are still open. -/
theorem reaches_text {b : Block} (hb : b.isPlain) (tokens : List Token) (line : Nat)
    {cs : List Char} (hj : j ≤ d) (hopen : b ≠ .nil ∨ j < d) (hcs : Follows j cs) :
    ∃ tokens' d' line', j < d' ∧
      tokens'.map Token.kind ++ turn j d' = tokens.map Token.kind ++ turn j d ++ b.kinds ∧
      Reaches (place line 0 (b.text j ++ cs), inside tokens d true)
        (place line' 0 cs, inside tokens' d' true) := by
  induction b generalizing j d tokens line cs with
  | nil => exact ⟨tokens, d, line, hopen.resolve_left (· rfl), by simp [Block.kinds], .refl _⟩
  | word key value rest ih =>
    simp only [Block.isPlain, Bool.and_eq_true] at hb
    obtain ⟨⟨hkey, hvalue⟩, hrest⟩ := hb
    obtain ⟨tokens', d', line', hd', hkinds, hreach⟩ := ih hrest
      (tokens ++ onLine line (turn j d ++ [.key, .scalar key true, .value]) ++
        onLine line [.scalar value true]) (line + 1) j.le_succ (.inr j.lt_succ_self) hcs
    refine ⟨tokens', d', line', hd', ?_, ?_⟩
    · rw [hkinds, turn_self_succ]
      simp [kind_onLine, Block.kinds]
    · rw [Block.text]
      simp only [List.append_assoc, List.cons_append]
      exact ((reaches_key hkey (fun _ _ => rfl) hj).trans
        (reaches_value hvalue (by omega) (follows_text hrest hcs))).trans hreach
  | nested key inner rest ihInner ihRest =>
    simp only [Block.isPlain, Bool.and_eq_true, Bool.not_eq_true'] at hb
    obtain ⟨⟨⟨hkey, hfilled⟩, hinner⟩, hrest⟩ := hb
    have hne : inner ≠ .nil := by
      rintro rfl
      cases hfilled
    obtain ⟨tokens₁, d₁, line₁, hd₁, hkinds₁, hreach₁⟩ := ihInner hinner
      (tokens ++ onLine line (turn j d ++ [.key, .scalar key true, .value])) (line + 1)
      (le_refl (j + 1)) (.inl hne) ((follows_text hrest hcs).mono j.le_succ)
    have hj₁ : j < d₁ := j.lt_succ_self.trans hd₁
    obtain ⟨tokens₂, d₂, line₂, hd₂, hkinds₂, hreach₂⟩ :=
      ihRest hrest tokens₁ line₁ hj₁.le (.inr hj₁) hcs
    refine ⟨tokens₂, d₂, line₂, hd₂, ?_, ?_⟩
    · rw [hkinds₂, turn_of_lt hd₁, ← List.append_assoc (tokens₁.map _), hkinds₁, turn_self]
      simp [kind_onLine, Block.kinds]
    · rw [Block.text]
      simp only [List.append_assoc, List.cons_append]
      refine ((reaches_key hkey (fun _ _ => rfl) hj).trans ?_).trans (hreach₁.trans hreach₂)
      rw [place_break]
      refine reaches_of_step? ?_ List.suffix_rfl
      rw [step?, if_neg (by simp), if_neg (by simp), if_pos (by simp [isBreak])]
      rfl

theorem run_nil_inside (tokens : List Token) (d line : Nat) :
    run 0 line [] (inside tokens d true) =
      (inside (tokens ++ onLine line (List.replicate d .blockEnd)) 0 true).push .streamEnd
        line := by
  rw [run, finish?, show (-1 : Int) = column 0 from rfl, unroll_inside]
  simp [dropKey?, inside, onLine]

/-- The tokens of a written block. -/
theorem kinds_tokensOf {b : Block} (hb : b.isPlain) (hne : b ≠ .nil) :
    (tokensOf (place 0 0 (b.text 0))).map Token.kind =
      .blockMappingStart :: b.kinds ++ [.blockEnd, .streamEnd] := by
  obtain ⟨tokens, d, line, hd, hkinds, hreach⟩ := reaches_text hb [] 0 (le_refl 0) (.inl hne)
    (.inl rfl)
  obtain ⟨line', hrun⟩ := hreach 0
  obtain ⟨n, rfl⟩ := Nat.exists_eq_add_of_lt hd
  rw [List.append_nil] at hrun
  rw [turn_self] at hkinds
  simp only [turn, Nat.zero_add, Nat.add_sub_cancel, if_neg (Nat.not_succ_le_zero n),
    List.append_nil, List.map_nil, List.nil_append] at hkinds
  rw [tokensOf, show ({} : Scan) = inside [] 0 true from rfl, hrun, place, run_nil_inside]
  simp only [inside, push, List.map_append, kind_onLine, Nat.zero_add, List.replicate_succ',
    ← List.append_assoc, hkinds]
  simp

end Scan

/-! ### Texts of blocks -/

/-- A character with which a block may be written. -/
def IsBlockChar (c : Char) : Prop := isWordChar c ∨ c = ' ' ∨ c = ':' ∨ c = '\n'

theorem isBlockChar_text {b : Block} (hb : b.isPlain) (j : Nat) :
    ∀ c ∈ b.text j, IsBlockChar c := by
  have hindent : ∀ c ∈ indentation j, IsBlockChar c := fun c hc =>
    .inr (.inl (List.eq_of_mem_replicate hc))
  have hword {w : String} (hw : isWord w) : ∀ c ∈ w.toList, IsBlockChar c := fun c hc =>
    .inl ((isWord_iff.1 hw).2 c hc)
  induction b generalizing j with
  | nil => simp [Block.text]
  | word key value rest ih =>
    simp only [Block.isPlain, Bool.and_eq_true] at hb
    obtain ⟨⟨hkey, hvalue⟩, hrest⟩ := hb
    simp only [Block.text, List.forall_mem_append, List.forall_mem_cons]
    exact ⟨hindent, hword (isKey_iff.1 hkey).1, by simp [IsBlockChar], by simp [IsBlockChar],
      hword hvalue, by simp [IsBlockChar], ih hrest j hindent⟩
  | nested key inner rest ihInner ihRest =>
    simp only [Block.isPlain, Bool.and_eq_true] at hb
    obtain ⟨⟨⟨hkey, -⟩, hinner⟩, hrest⟩ := hb
    simp only [Block.text, List.forall_mem_append, List.forall_mem_cons]
    exact ⟨hindent, hword (isKey_iff.1 hkey).1, by simp [IsBlockChar], by simp [IsBlockChar],
      ihInner hinner (j + 1) fun c hc => .inr (.inl (List.eq_of_mem_replicate hc)),
      ihRest hrest j hindent⟩

theorem toNat_of_isBlockChar {c : Char} (h : IsBlockChar c) :
    c.toNat = 10 ∨ 32 ≤ c.toNat ∧ c.toNat ≤ 122 := by
  rcases h with h | rfl | rfl | rfl
  · have := toNat_of_isWordChar h
    omega
  all_goals decide

theorem unifyBreaks_eq {cs : List Char} (h : ∀ c ∈ cs, IsBlockChar c) : unifyBreaks cs = cs := by
  induction cs with
  | nil => rfl
  | cons c cs ih =>
    obtain ⟨hc, hcs⟩ := List.forall_mem_cons.1 h
    have hnat := toNat_of_isBlockChar hc
    rw [unifyBreaks, if_neg (by omega), ih hcs]
    rintro rest rfl
    exact absurd hnat (by decide)

theorem ofChars?_eq {cs : List Char} (h : ∀ c ∈ cs, IsBlockChar c) :
    Source.ofChars? cs = some (place 0 0 cs) := by
  have hallowed : cs.all isAllowed := by
    refine List.all_eq_true.2 fun c hc => ?_
    have := toNat_of_isBlockChar (h c hc)
    simp only [isAllowed, Bool.or_eq_true, Bool.and_eq_true, beq_iff_eq, decide_eq_true_eq]
    omega
  unfold Source.ofChars?
  cases cs with
  | nil => rfl
  | cons c cs =>
    have := toNat_of_isBlockChar (h c List.mem_cons_self)
    have hmark : ¬ c.toNat = 0xFEFF := by omega
    simp only [if_neg hmark, if_pos hallowed, unifyBreaks_eq h]

end SelectorCalculus.Yaml
