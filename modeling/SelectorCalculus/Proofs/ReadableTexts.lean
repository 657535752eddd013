import SelectorCalculus.Selector.Render
import SelectorCalculus.Text.Folding
import Mathlib.Data.List.Basic
/-! Texts that can be told from what follows them: words, attribute values, and texts joined from
such texts. -/

namespace SelectorCalculus.Text

open Identifier

/-! ### Words -/

theorem append_inj_of_all {p : Char → Bool} {w v x y : List Char} (hw : ∀ c ∈ w, p c)
    (hv : ∀ c ∈ v, p c) (hx : ∀ c ∈ x.head?, ¬ p c) (hy : ∀ c ∈ y.head?, ¬ p c)
    (h : w ++ x = v ++ y) : w = v ∧ x = y := by
  induction w generalizing v with
  | nil =>
    cases v with
    | nil => exact ⟨rfl, h⟩
    | cons c v =>
      rw [List.nil_append] at h
      exact absurd (hv c List.mem_cons_self) (hx c (by simp [h]))
  | cons c w ih =>
    cases v with
    | nil =>
      rw [List.nil_append] at h
      exact absurd (hw c List.mem_cons_self) (hy c (by simp [← h]))
    | cons d v =>
      obtain ⟨hcd, htail⟩ := List.cons.inj h
      obtain ⟨hwv, hxy⟩ := ih (List.forall_mem_cons.1 hw).2 (List.forall_mem_cons.1 hv).2 htail
      exact ⟨by rw [hcd, hwv], hxy⟩

/-- A name of one or more letters, digits, hyphens and underscores. -/
def isName (cs : List Char) : Bool := !cs.isEmpty && cs.all isBody

/-- A name, or a star. -/
def isNameOrStar (cs : List Char) : Bool := cs == ['*'] || isName cs

theorem isName_iff {cs : List Char} : isName cs ↔ cs ≠ [] ∧ ∀ c ∈ cs, isBody c := by
  simp [isName]

theorem isName_cons {c : Char} {cs : List Char} (h : isName (c :: cs)) : isBody c :=
  (isName_iff.1 h).2 c List.mem_cons_self

theorem isName_append {cs ds : List Char} (hc : isName cs) (hd : isName ds) :
    isName (cs ++ ds) := by
  rw [isName_iff] at hc hd ⊢
  refine ⟨by simp [hc.1], fun c h => ?_⟩
  rcases List.mem_append.1 h with h | h
  · exact hc.2 c h
  · exact hd.2 c h

theorem isName_append_inj {w v x y : List Char} (hw : isName w) (hv : isName v)
    (hx : ∀ c ∈ x.head?, ¬ isBody c) (hy : ∀ c ∈ y.head?, ¬ isBody c) (h : w ++ x = v ++ y) :
    w = v ∧ x = y :=
  append_inj_of_all (isName_iff.1 hw).2 (isName_iff.1 hv).2 hx hy h

theorem isNameOrStar_append_inj {w v x y : List Char} (hw : isNameOrStar w) (hv : isNameOrStar v)
    (hx : isName w → ∀ c ∈ x.head?, ¬ isBody c) (hy : isName v → ∀ c ∈ y.head?, ¬ isBody c)
    (h : w ++ x = v ++ y) : w = v ∧ x = y := by
  have hstar {cs u z : List Char} (hcs : isName cs) : '*' :: u ≠ cs ++ z := by
    intro hu
    cases cs with
    | nil => exact absurd hcs (by decide)
    | cons c cs =>
      obtain ⟨rfl, -⟩ := List.cons.inj hu
      exact absurd (isName_cons hcs) (by decide)
  simp only [isNameOrStar, Bool.or_eq_true, beq_iff_eq] at hw hv
  rcases hw with rfl | hw <;> rcases hv with rfl | hv
  · exact ⟨rfl, List.append_cancel_left h⟩
  · exact absurd h (hstar hv)
  · exact absurd h.symm (hstar hw)
  · exact isName_append_inj hw hv (hx hw) (hy hv) h

/-! ### Folded names -/

theorem isBody_toLower {c : Char} (h : isBody c) (hc : c.toNat < 128) : isBody c.toLower := by
  have hcode : ∀ n < 128, isBody (Char.ofNat n) → isBody (Char.ofNat n).toLower := by decide
  rw [← Char.ofNat_toNat c] at h ⊢
  exact hcode c.toNat hc h

theorem foldRanges_above : ∀ r ∈ foldRanges,
    (r.first = r.last ∧ isBody (Char.ofNat ((r.first : Int) + r.shift).toNat)) ∨
      (128 ≤ (r.first : Int) + r.shift ∧ (r.last : Int) + r.shift < 0xD800) ∨
        (0xE000 ≤ (r.first : Int) + r.shift ∧ (r.last : Int) + r.shift < 0x110000) := by
  decide +kernel

theorem foldSequences_isName : ∀ p ∈ foldSequences, isName (p.2.map Char.ofNat) := by
  decide +kernel

theorem isBody_apply {r : FoldRange} (hr : r ∈ foldRanges) {c : Char} (hc : r.contains c) :
    isBody (r.apply c) := by
  simp only [FoldRange.contains, Bool.and_eq_true, decide_eq_true_eq] at hc
  unfold FoldRange.apply
  have habove {n : Nat} (h : 128 ≤ n) (hvalid : n.isValidChar) : isBody (Char.ofNat n) := by
    have hcode : (Char.ofNat n).toNat = n := by
      rw [Char.ofNat, dif_pos hvalid]
      rfl
    simp [isBody, isStart, hcode, h]
  rcases foldRanges_above r hr with ⟨heq, hbody⟩ | hrange | hrange
  · have hfirst : c.toNat = r.first := by omega
    rwa [hfirst]
  · refine habove (by omega) (Or.inl (by omega))
  · refine habove (by omega) (Or.inr ⟨by omega, by omega⟩)

theorem isName_foldChar {c : Char} (h : isBody c) : isName (foldChar c) := by
  unfold foldChar
  split_ifs with hc
  · simp [isName, isBody_toLower h hc]
  · split
    · rename_i codes hcodes
      obtain ⟨pre, post, hsplit, -⟩ := List.lookup_eq_some_iff.1 hcodes
      exact foldSequences_isName (c.toNat, codes) (by simp [hsplit])
    · split
      · rename_i r hr
        have hcontains : r.contains c := by simpa using List.find?_some hr
        simp [isName, isBody_apply (List.mem_of_find?_eq_some hr) hcontains]
      · simp [isName, h]

theorem isName_fold {s : String} (h : isName s.toList) : isName (fold s).toList := by
  rw [fold, String.toList_ofList]
  obtain ⟨hne, hall⟩ := isName_iff.1 h
  refine isName_iff.2 ⟨?_, fun c hc => ?_⟩
  · obtain ⟨d, ds, hd⟩ := List.exists_cons_of_ne_nil hne
    have hfirst := (isName_iff.1 (isName_foldChar (hall d (by simp [hd])))).1
    simp [hd, hfirst]
  · obtain ⟨d, hd, hcd⟩ := List.mem_flatMap.1 hc
    exact (isName_iff.1 (isName_foldChar (hall d hd))).2 c hcd

/-! ### Attribute values -/

theorem escapeValueChar_append_inj {c d : Char} {x y : List Char}
    (h : escapeValueChar c ++ x = escapeValueChar d ++ y) : c = d ∧ x = y := by
  unfold escapeValueChar at h
  split_ifs at h with hc hd hd hc' hd hd hd hd
  all_goals grind

theorem escapeValueChar_ne_quote {c : Char} {x y : List Char} :
    escapeValueChar c ++ x ≠ '"' :: y := by
  unfold escapeValueChar
  split_ifs
  all_goals grind

/-- What stands between the quotes ends at the first quote that is not escaped. -/
theorem flatMap_escapeValueChar_inj {v w x y : List Char}
    (h : v.flatMap escapeValueChar ++ '"' :: x = w.flatMap escapeValueChar ++ '"' :: y) :
    v = w ∧ x = y := by
  induction v generalizing w with
  | nil =>
    cases w with
    | nil => exact ⟨rfl, (List.cons.inj h).2⟩
    | cons d w =>
      rw [List.flatMap_cons, List.append_assoc] at h
      exact absurd h.symm escapeValueChar_ne_quote
  | cons c v ih =>
    cases w with
    | nil =>
      rw [List.flatMap_cons, List.append_assoc] at h
      exact absurd h escapeValueChar_ne_quote
    | cons d w =>
      rw [List.flatMap_cons, List.flatMap_cons, List.append_assoc, List.append_assoc] at h
      obtain ⟨hcd, htail⟩ := escapeValueChar_append_inj h
      obtain ⟨hvw, hxy⟩ := ih htail
      exact ⟨by rw [hcd, hvw], hxy⟩

/-- A character that no identifier goes on with, except as the blank of an escape. -/
def isForeign (c : Char) : Bool := c != '\\' && !isBody c

theorem isBody_of_isHexDigit {c : Char} (h : isHexDigit c) : isBody c := by
  by_cases hc : c.toNat < 128
  · have hcode : ∀ n < 128, isHexDigit (Char.ofNat n) → isBody (Char.ofNat n) := by decide
    rw [← Char.ofNat_toNat c] at h ⊢
    exact hcode c.toNat hc h
  · simp [isBody, isStart, Nat.le_of_not_lt hc]

theorem not_isHexDigit {c : Char} (h : isForeign c) : isHexDigit c = false := by
  simp only [isForeign, Bool.and_eq_true, Bool.not_eq_true'] at h
  by_contra hhex
  rw [Bool.not_eq_false] at hhex
  simp [isBody_of_isHexDigit hhex] at h

theorem takeWhile_take_append {p : Char → Bool} {c : Char} (hc : p c = false) (n : Nat)
    (cs ds : List Char) :
    ((cs ++ c :: ds).take n).takeWhile p = (cs.take n).takeWhile p := by
  induction cs generalizing n with
  | nil => cases n <;> simp [hc]
  | cons d cs ih =>
    cases n with
    | zero => rfl
    | succ n => simp only [List.cons_append, List.take_succ_cons, List.takeWhile_cons, ih]

theorem exists_escapeLength?_append {c : Char} (hc : isForeign c) {cs : List Char} {n : Nat}
    (h : escapeLength? cs = some n) :
    ∃ m, (∀ ds, escapeLength? (cs ++ c :: ds) = some m) ∧
      (m = n ∨ (m = cs.length + 1 ∧ isEscapeEnd c)) := by
  cases cs with
  | nil => cases h
  | cons d cs =>
    simp only [escapeLength?, List.cons_append] at h ⊢
    split_ifs at h ⊢ with hd hend
    · simp only [takeWhile_take_append (not_isHexDigit hc)]
      generalize hk : ((cs.take 5).takeWhile isHexDigit).length = k at h ⊢
      have hle : k ≤ cs.length := by
        rw [← hk]
        exact Nat.le_trans (List.takeWhile_sublist _).length_le (List.take_sublist _ _).length_le
      simp only [Nat.add_sub_cancel_left] at h ⊢
      rcases Nat.lt_or_eq_of_le hle with hlt | rfl
      · refine ⟨n, fun ds => ?_, Or.inl rfl⟩
        rw [List.drop_append_of_le_length hle, List.head?_append_of_ne_nil _ (by simpa using hlt)]
        exact h
      · simp only [List.drop_length, List.head?_nil, Option.some.injEq] at h
        simp only [List.drop_left', List.head?_cons]
        by_cases hend : isEscapeEnd c
        · refine ⟨_, fun ds => rfl, Or.inr ⟨?_, hend⟩⟩
          simp [hend, Nat.add_comm]
        · refine ⟨_, fun ds => rfl, Or.inl ?_⟩
          simp [hend, h]
    · exact ⟨n, fun ds => h, Or.inl rfl⟩

theorem isTail_length (cs ds : List Char) : isTail cs.length (cs ++ ds) = isTail 0 ds := by
  induction cs with
  | nil => rfl
  | cons c cs ih => exact ih

/-- An identifier goes on with a foreign character only if this is the blank of an escape that the
identifier ends with. -/
theorem isTail_append {c : Char} (hc : isForeign c) {n : Nat} {cs ds : List Char}
    (h : isTail n cs) (h' : isTail n (cs ++ c :: ds)) : isEscapeEnd c ∧ isTail n (cs ++ [c]) := by
  induction cs generalizing n with
  | nil =>
    cases n with
    | zero =>
      simp only [isForeign, Bool.and_eq_true, bne_iff_ne, ne_eq, Bool.not_eq_true'] at hc
      simp [isTail, hc] at h'
    | succ n => cases h
  | cons d cs ih =>
    cases n with
    | succ n => exact ih h h'
    | zero =>
      simp only [isTail, List.cons_append] at h h' ⊢
      split_ifs at h h' ⊢ with hd
      · cases hlen : escapeLength? cs with
        | none => simp [hlen] at h
        | some k =>
          obtain ⟨m, hm, rfl | ⟨rfl, hend⟩⟩ := exists_escapeLength?_append hc hlen
          · simp only [hlen, hm] at h h' ⊢
            exact ih h h'
          · refine ⟨hend, ?_⟩
            have hskip := isTail_length (cs ++ [c]) []
            simp only [List.length_append, List.length_singleton, List.append_nil] at hskip
            simp only [hm, hskip, isTail]
      · simp only [Bool.and_eq_true] at h h' ⊢
        obtain ⟨hend, htail⟩ := ih h.2 h'.2
        exact ⟨hend, h.1, htail⟩

theorem startsAndEnds_append {c : Char} (hc : isForeign c) {cs ds : List Char}
    (h : startsAndEnds cs) (h' : startsAndEnds (cs ++ c :: ds)) :
    isEscapeEnd c ∧ startsAndEnds (cs ++ [c]) := by
  cases cs with
  | nil => cases h
  | cons d cs =>
    by_cases hd : d = '\\'
    · have htail (es : List Char) : startsAndEnds (d :: es) = isTail 0 (d :: es) := by
        simp only [startsAndEnds, isTail, hd, if_true]
      rw [List.cons_append, htail] at h' ⊢
      rw [htail] at h
      exact isTail_append hc h h'
    · simp only [startsAndEnds, List.cons_append, hd, if_false, Bool.and_eq_true] at h h' ⊢
      obtain ⟨hend, htail⟩ := isTail_append hc h.2 h'.2
      exact ⟨hend, h.1, htail⟩

theorem isIdentifier_append {c : Char} (hc : isForeign c) {v w : String} {ds : List Char}
    (h : isIdentifier v) (h' : isIdentifier w) (hw : w.toList = v.toList ++ c :: ds) :
    isEscapeEnd c ∧ isIdentifier (v.push c) := by
  unfold isIdentifier at h h' ⊢
  rw [hw] at h'
  rw [String.toList_push]
  generalize v.toList = cs at h h' ⊢
  rcases cs with _ | ⟨d, rest⟩
  · simp [startsAndEnds] at h
  by_cases hd : d = '-'
  · subst hd
    rcases rest with _ | ⟨e, rest⟩
    · simp [startsAndEnds] at h
    by_cases he : e = '-'
    · subst he
      exact isTail_append hc h h'
    · simp only [List.cons_append, List.cons.injEq, he, false_and, imp_false, not_false_eq_true,
        implies_true] at h h' ⊢
      exact startsAndEnds_append hc h h'
  · simp only [List.cons_append, List.cons.injEq, hd, false_and, imp_false, not_false_eq_true,
      implies_true] at h h' ⊢
    exact startsAndEnds_append hc h h'

theorem isIdentifier_ne_quote {v : String} (h : isIdentifier v) (x y : List Char) :
    v.toList ++ x ≠ '"' :: y := by
  unfold isIdentifier at h
  generalize v.toList = cs at h ⊢
  rintro heq
  cases cs with
  | nil => simp [startsAndEnds] at h
  | cons c cs =>
    obtain ⟨rfl, -⟩ := List.cons.inj heq
    have hstart : startsAndEnds ('"' :: cs) := by simpa using h
    rw [startsAndEnds, if_neg (by decide), Bool.and_eq_true] at hstart
    exact absurd hstart.1 (by decide)

/-- What follows an attribute value: the closing bracket, or a blank if the value does not end with
an escape that could take it. -/
def EndsValue (v : String) (x : List Char) : Prop :=
  x.head? = some ']' ∨ (x.head? = some ' ' ∧ ¬ (isIdentifier v ∧ isIdentifier (v.push ' ')))

theorem isIdentifier_append_inj {v w : String} {x y : List Char} (hv : isIdentifier v)
    (hw : isIdentifier w) (hx : EndsValue v x) (hy : EndsValue w y)
    (h : v.toList ++ x = w.toList ++ y) : v = w ∧ x = y := by
  have hproper {v w : String} {x y ds : List Char} (hv : isIdentifier v) (hw : isIdentifier w)
      (hx : EndsValue v x) (hds : w.toList = v.toList ++ ds) (hxd : x = ds ++ y) : ds = [] := by
    cases ds with
    | nil => rfl
    | cons c ds =>
      have hhead : x.head? = some c := by rw [hxd, List.cons_append, List.head?_cons]
      rcases hx with hx | ⟨hx, hopen⟩
      · cases hhead.symm.trans hx
        have hend := (isIdentifier_append (by decide) hv hw hds).1
        exact absurd hend (by decide)
      · cases hhead.symm.trans hx
        exact absurd ⟨hv, (isIdentifier_append (by decide) hv hw hds).2⟩ hopen
  rcases List.append_eq_append_iff.1 h with ⟨ds, hw', hx'⟩ | ⟨ds, hv', hy'⟩
  · obtain rfl := hproper hv hw hx hw' hx'
    rw [List.append_nil] at hw'
    exact ⟨String.toList_inj.1 hw'.symm, hx'⟩
  · obtain rfl := hproper hw hv hy hv' hy'
    rw [List.append_nil] at hv'
    exact ⟨String.toList_inj.1 hv', hy'.symm⟩

theorem attributeValue_append_inj {v w : String} {x y : List Char} (hx : EndsValue v x)
    (hy : EndsValue w y) (h : (attributeValue v).toList ++ x = (attributeValue w).toList ++ y) :
    v = w ∧ x = y := by
  unfold attributeValue at h
  split_ifs at h with hv hw hw
  · exact isIdentifier_append_inj hv hw hx hy h
  · exact absurd h (by simpa using isIdentifier_ne_quote hv x _)
  · exact absurd h.symm (by simpa using isIdentifier_ne_quote hw y _)
  · simp only [String.toList_ofList, List.cons_append, List.append_assoc, List.cons.injEq,
      true_and] at h
    obtain ⟨hvw, hxy⟩ := flatMap_escapeValueChar_inj h
    exact ⟨String.toList_inj.1 hvw, hxy⟩

/-! ### Joined texts -/

section Joined

variable {sep : List Char}

/-- What stands behind a text in a joined list of texts: the texts that follow, and then the
rest. -/
def following (sep : List Char) (ks : List (List Char)) (x : List Char) : List Char :=
  match ks with
  | [] => x
  | k :: ks => sep ++ sep.intercalate (k :: ks) ++ x

theorem intercalate_cons_append (k : List Char) (ks : List (List Char)) (x : List Char) :
    sep.intercalate (k :: ks) ++ x = k ++ following sep ks x := by
  cases ks with
  | nil => simp [following, List.intercalate]
  | cons l ks => simp [following, List.intercalate_cons_cons]

/-- Every text is delimited by what follows it. -/
def Delimited (stops : List Char → List Char → Prop) (sep : List Char) :
    List (List Char) → List Char → Prop
  | [], _ => True
  | k :: ks, x => stops k (following sep ks x) ∧ Delimited stops sep ks x

/-- Joined texts can be read back if the texts can and if no rest looks like one more text. -/
theorem intercalate_append_inj {stops : List Char → List Char → Prop} {ends : List Char → Prop}
    {ks ls : List (List Char)} {x y : List Char}
    (hread : ∀ k ∈ ks, ∀ l ∈ ls, ∀ u v, stops k u → stops l v → k ++ u = l ++ v → k = l ∧ u = v)
    (hks : ∀ k ∈ ks, ∀ u, ¬ ends (sep ++ (k ++ u))) (hls : ∀ l ∈ ls, ∀ u, ¬ ends (sep ++ (l ++ u)))
    (hx : ends x) (hy : ends y) (hkx : Delimited stops sep ks x) (hly : Delimited stops sep ls y)
    (h : following sep ks x = following sep ls y) : ks = ls ∧ x = y := by
  induction ks generalizing ls with
  | nil =>
    cases ls with
    | nil => exact ⟨rfl, h⟩
    | cons l ls =>
      rw [following, following, List.append_assoc, intercalate_cons_append] at h
      exact absurd (h ▸ hx) (hls l List.mem_cons_self _)
  | cons k ks ih =>
    cases ls with
    | nil =>
      rw [following, following, List.append_assoc, intercalate_cons_append] at h
      exact absurd (h ▸ hy) (hks k List.mem_cons_self _)
    | cons l ls =>
      rw [following, following, List.append_assoc, List.append_assoc, intercalate_cons_append,
        intercalate_cons_append, List.append_cancel_left_eq] at h
      obtain ⟨hkl, hrest⟩ := hread k List.mem_cons_self l List.mem_cons_self _ _ hkx.1 hly.1 h
      obtain ⟨htail, hxy⟩ := ih (fun k hk l hl => hread k (List.mem_cons_of_mem _ hk) l
        (List.mem_cons_of_mem _ hl)) (fun k hk => hks k (List.mem_cons_of_mem _ hk))
        (fun l hl => hls l (List.mem_cons_of_mem _ hl)) hkx.2 hly.2 hrest
      exact ⟨by rw [hkl, htail], hxy⟩

/-- Where the rest of a text is all that matters, the separator and the last rest are enough. -/
theorem delimited_of_rest {stops : List Char → Prop} (hsep : ∀ u, stops (sep ++ u))
    (ks : List (List Char)) {x : List Char} (hx : stops x) :
    Delimited (fun _ => stops) sep ks x := by
  induction ks with
  | nil => trivial
  | cons k ks ih =>
    refine ⟨?_, ih⟩
    cases ks with
    | nil => exact hx
    | cons l ks =>
      rw [following, List.append_assoc]
      exact hsep _

end Joined

end SelectorCalculus.Text
