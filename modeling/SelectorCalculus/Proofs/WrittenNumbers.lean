import SelectorCalculus.Yaml.Resolve
import Mathlib.Data.List.TakeDrop
import Mathlib.Data.List.TakeWhile
/-! The decimal text of a number of 64 bits, as a plain scalar, stands for the number. -/

namespace SelectorCalculus.Yaml

theorem hexValue?_digitChar {d : Nat} (hd : d < 10) : hexValue? (Nat.digitChar d) = some d := by
  have hall : ∀ d < 10, hexValue? (Nat.digitChar d) = some d := by decide
  exact hall d hd

theorem digitsValue?_concat {cs : List Char} {n d : Nat} (hne : cs ≠ [])
    (h : digitsValue? 10 cs = some n) (hd : d < 10) :
    digitsValue? 10 (cs ++ [Nat.digitChar d]) = some (n * 10 + d) := by
  unfold digitsValue? at h ⊢
  split at h
  · cases h
  · split
    · next heq => exact absurd heq (by simp)
    · rw [List.foldlM_append, h]
      simp [hexValue?_digitChar hd, hd]

theorem digitsValue?_toDigits (n : Nat) : digitsValue? 10 (Nat.toDigits 10 n) = some n := by
  induction n using Nat.strongRecOn with
  | _ n ih =>
    by_cases hn : n < 10
    · rw [Nat.toDigits_of_lt_base hn]
      simp [digitsValue?, hexValue?_digitChar hn, hn]
    · rw [Nat.toDigits_of_base_le (by omega) (by omega),
        digitsValue?_concat Nat.toDigits_ne_nil (ih _ (by omega)) (Nat.mod_lt _ (by omega)),
        Nat.div_add_mod']

/-- The digits of a number do not start with a zero, unless the number is zero. -/
theorem toDigits_ne_zero_cons {n : Nat} (hn : 0 < n) (cs : List Char) :
    Nat.toDigits 10 n ≠ '0' :: cs := by
  induction n using Nat.strongRecOn generalizing cs with
  | _ n ih =>
    by_cases hlt : n < 10
    · rw [Nat.toDigits_of_lt_base hlt]
      have hall : ∀ n < 10, 0 < n → Nat.digitChar n ≠ '0' := by decide
      exact fun h => hall n hlt hn (List.cons_eq_cons.1 h).1
    · rw [Nat.toDigits_of_base_le (by omega) (by omega)]
      obtain ⟨c, w, hw⟩ := List.exists_cons_of_ne_nil (Nat.toDigits_ne_nil (n := n / 10) (b := 10))
      rw [hw]
      rintro ⟨rfl⟩
      exact ih (n / 10) (by omega) (by omega) w hw

theorem isDigit_toDigits (n : Nat) : ∀ c ∈ Nat.toDigits 10 n, c.isDigit :=
  fun _ => Nat.isDigit_of_mem_toDigits (by omega) le_rfl

theorem natural?_toDigits (n : Nat) : natural? (Nat.toDigits 10 n) = some n := by
  unfold natural?
  split
  · next c rest heq =>
    obtain rfl | hn := Nat.eq_zero_or_pos n
    · exact absurd heq (by simp)
    · exact absurd heq (toDigits_ne_zero_cons hn _)
  · exact digitsValue?_toDigits n

theorem whole?_toDigits {n : Nat} (hn : n < unsignedLimit) :
    whole? (Nat.toDigits 10 n) = some (n : Int) := by
  have hdigits := isDigit_toDigits n
  unfold whole?
  split
  · next heq => exact absurd (hdigits '-' (by rw [heq]; exact List.mem_cons_self)) (by decide)
  · next heq => exact absurd (hdigits '+' (by rw [heq]; exact List.mem_cons_self)) (by decide)
  · simp [natural?_toDigits, hn]

theorem not_isDate_toDigits (n : Nat) : isDate (Nat.toDigits 10 n) = false := by
  have hspan : (Nat.toDigits 10 n).span Char.isDigit = (Nat.toDigits 10 n, []) := by
    rw [List.span_eq_takeWhile_dropWhile, List.takeWhile_eq_self_iff.2 (isDigit_toDigits n),
      List.dropWhile_eq_nil_iff.2 (isDigit_toDigits n)]
  simp only [isDate, hspan, after?]
  split <;> rfl

theorem wordMeaning?_of_digits {s : String} (hne : s.toList ≠ []) (hs : ∀ c ∈ s.toList, c.isDigit) :
    wordMeaning? s = none := by
  have hcontains (ws : List String)
      (hws : ws.all fun w => w.toList.isEmpty || !w.toList.all Char.isDigit) :
      ws.contains s = false := by
    rw [Bool.eq_false_iff, ne_eq, List.contains_iff_mem]
    intro hmem
    have := List.all_eq_true.1 hws s hmem
    simp only [Bool.or_eq_true, List.isEmpty_iff, Bool.not_eq_true'] at this
    rcases this with h | h
    · exact hne h
    · rw [List.all_eq_true.2 hs] at h
      cases h
  unfold wordMeaning?
  rw [hcontains _ (by decide), hcontains _ (by decide), hcontains _ (by decide),
    hcontains _ (by decide), hcontains _ (by decide), hcontains _ (by decide)]
  rfl

theorem resolvePlain_toString {n : Nat} (hn : n < unsignedLimit) :
    resolvePlain (toString n) = .whole n := by
  have hdigits := isDigit_toDigits n
  have htext : (toString n).toList = Nat.toDigits 10 n := by
    rw [Nat.toString_eq_ofList_toDigits, String.toList_ofList]
  have hmeaning : numberMeaning (Nat.toDigits 10 n) = .whole n := by
    have hplain : (Nat.toDigits 10 n).filter (· ≠ '_') = Nat.toDigits 10 n := by
      refine List.filter_eq_self.2 fun c hc => ?_
      have := hdigits c hc
      rw [decide_eq_true_eq]
      rintro rfl
      exact absurd this (by decide)
    simp only [numberMeaning, hplain, not_isDate_toDigits, whole?_toDigits hn]
    rfl
  obtain ⟨c, w, hw⟩ := List.exists_cons_of_ne_nil (Nat.toDigits_ne_nil (n := n) (b := 10))
  have hc : c.isDigit := hdigits c (hw ▸ List.mem_cons_self)
  rw [resolvePlain, wordMeaning?_of_digits (htext ▸ Nat.toDigits_ne_nil) (htext ▸ hdigits), htext]
  rw [hw] at hmeaning ⊢
  simp only
  rw [if_neg, if_pos (.inl hc), hmeaning]
  rintro rfl
  exact absurd hc (by decide)

end SelectorCalculus.Yaml
