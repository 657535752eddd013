import SelectorCalculus.Config.Read
import SelectorCalculus.Proofs.RecordDecoding
import SelectorCalculus.Proofs.WrittenNumbers
/-! Every configuration that is read can be used, and every one that can be used is read back from
its text. -/

namespace SelectorCalculus

open Yaml

/-- A configuration that can be used: the version is known, the mode and the level are known words,
and the limit is a number of 64 bits that is not below zero. -/
structure Config.IsUsable (c : Config) : Prop where
  version : c.version = 1
  mode : Mode.ofText? c.extend.mode.text = some c.extend.mode
  trimLimit : 0 ≤ c.extend.trimLimit
  trimLimit_lt : c.extend.trimLimit < (signedLimit : Int)
  level : c.level ∈ Config.levels

namespace Config

/-! ### What is read -/

theorem ofText?_text (m : Mode) : Mode.ofText? m.text = some m := by
  cases m <;> rfl

theorem wholeOf?_lt {m : Meaning} {n : Int} (h : wholeOf? m = some n) : n < signedLimit := by
  have hleast : leastWhole < signedLimit := by decide
  unfold wholeOf? at h
  split at h
  · split at h
    · next hlt => exact Option.some.inj h ▸ hlt
    · cases h
  · exact Option.some.inj h ▸ hleast
  · obtain ⟨k, -, h⟩ := Option.bind_eq_some_iff.1 h
    split at h
    · cases h
    · rw [← Option.some.inj h]
      split
      · next hk => exact hk.2
      · exact hleast
  · cases h

theorem faults_eq_nil_iff {c : Config} : c.faults = [] ↔
    c.version = 1 ∧ 0 ≤ c.extend.trimLimit ∧ c.level ∈ levels := by
  have hempty : "" ∉ levels := by decide
  simp only [faults, List.append_eq_nil_iff, ite_eq_left_iff, reduceCtorEq, imp_false,
    not_not, and_assoc]
  refine and_congr_right fun _ => and_congr_right fun _ => ?_
  by_cases h : c.level = ""
  · simp [h, hempty]
  · simp [h]

theorem extendDecoder_keeps : extendDecoder.Keeps fun o => o.trimLimit < (signedLimit : Int) := by
  refine recordDecoder_keeps ?_
  simp only [List.forall_mem_cons, List.not_mem_nil, false_imp_iff, implies_true, and_true]
  exact ⟨choiceDecoder_keeps fun _ _ h => h, wholeDecoder_keeps fun _ _ _ hn _ => wholeOf?_lt hn,
    truthDecoder_keeps fun _ _ h => h, truthDecoder_keeps fun _ _ h => h⟩

/-- A document sets the limit to a number of 64 bits, if it sets it. -/
theorem decoder_keeps : decoder.Keeps fun c => c.extend.trimLimit < (signedLimit : Int) := by
  refine recordDecoder_keeps ?_
  simp only [List.forall_mem_cons, List.not_mem_nil, false_imp_iff, implies_true, and_true]
  refine ⟨wholeDecoder_keeps fun _ _ _ _ h => h, ?_, ?_⟩
  · exact extendDecoder_keeps.within (fun _ h => h) fun _ _ h _ => h
  · have hlevel : loggingDecoder.Keeps fun _ => True := fun _ _ _ _ _ => trivial
    exact hlevel.within (fun _ _ => trivial) fun _ _ _ h => h

theorem trimLimit_lt_of_overlay {text : List Char} {c c' : Config}
    (hc : c.extend.trimLimit < (signedLimit : Int)) (h : overlay text c = .ok c') :
    c'.extend.trimLimit < (signedLimit : Int) := by
  unfold overlay at h
  split at h
  · cases h
  · cases h
  · split at h
    · cases h
    · cases h
    · next heq =>
      cases h
      exact decoder_keeps _ _ hc _ heq
    · cases h

theorem isUsable_of_check {c c' : Config} (hc : c.extend.trimLimit < (signedLimit : Int))
    (h : c.check = .ok c') : c'.IsUsable := by
  unfold check at h
  split at h
  · next hfaults =>
    cases h
    obtain ⟨hversion, hlimit, hlevel⟩ := faults_eq_nil_iff.1 hfaults
    exact ⟨hversion, ofText?_text _, hlimit, hc, hlevel⟩
  · cases h

/-- The text that is built in sets every field to its default. -/
theorem overlay_builtIn : overlay builtIn.toList zero = .ok {} := by
  have hlines : builtIn.toList = _ := String.toList_join
  have hdefault : (overlay builtIn.toList zero).toOption = some {} := by
    rw [hlines]
    decide +kernel
  cases hoverlay : overlay builtIn.toList zero with
  | error e =>
    rw [hoverlay] at hdefault
    cases hdefault
  | ok c =>
    rw [hoverlay] at hdefault
    exact congrArg _ (Option.some.inj hdefault)

theorem readBuiltIn_eq : readBuiltIn = .ok {} := by
  unfold readBuiltIn
  rw [overlay_builtIn]
  rfl

theorem read_eq (text : String) : read text =
    (if text.toList.all Text.isBlank then .ok {} else overlay text.toList {}) >>= check := by
  unfold read
  rw [overlay_builtIn]
  by_cases hblank : text.toList.all Text.isBlank
  · rw [if_pos hblank]
    exact if_pos hblank
  · rw [if_neg hblank]
    exact if_neg hblank

theorem isUsable_of_read {text : String} {c : Config} (h : read text = .ok c) : c.IsUsable := by
  have hdefault : ({} : Config).extend.trimLimit < (signedLimit : Int) := by decide
  rw [read_eq] at h
  split at h
  · exact isUsable_of_check hdefault h
  · cases hoverlay : overlay text.toList {} with
    | error e =>
      rw [hoverlay] at h
      cases h
    | ok c' =>
      rw [hoverlay] at h
      exact isUsable_of_check (trimLimit_lt_of_overlay hdefault hoverlay) h

/-! ### What is written -/

/-- The entries for the options of extension. -/
def extendBlock (o : ExtendOptions) : Block :=
  .word "mode" o.mode.text <|
  .word "trim_limit" (toString o.trimLimit) <|
  .word "strip_placeholders" (toString o.stripPlaceholders) <|
  .word "check_media" (toString o.checkMedia) .nil

/-- The entries for a level. -/
def consoleBlock (level : String) : Block := .word "level" level .nil

/-- The entries of a written configuration. -/
def block (c : Config) : Block :=
  .word "version" (toString c.version) <|
  .nested "extend" (extendBlock c.extend) <|
  .nested "logging" (.nested "console" (consoleBlock c.level) .nil) .nil

theorem toList_render (c : Config) : c.render.toList = c.block.text 0 := by
  have h₀ : indentation 0 = [] := rfl
  have h₁ : indentation 1 = [' ', ' ', ' ', ' '] := rfl
  have h₂ : indentation 2 = [' ', ' ', ' ', ' ', ' ', ' ', ' ', ' '] := rfl
  unfold render
  simp only [block, extendBlock, consoleBlock, Block.text, String.toList_append, h₀, h₁, h₂,
    Nat.zero_add, Nat.reduceAdd, String.reduceToList, List.nil_append, List.cons_append,
    List.append_nil, List.append_assoc]

theorem resolvePlain_toString_bool (b : Bool) : resolvePlain (toString b) = .truth b := by
  cases b <;> rfl

theorem resolvePlain_mode (m : Mode) : resolvePlain m.text = .text := by
  cases m <;> rfl

theorem resolvePlain_level {level : String} (h : level ∈ levels) : resolvePlain level = .text := by
  have hall : ∀ level ∈ levels, resolvePlain level = .text := by decide
  exact hall level h

theorem isWord_toString {n : Int} (h : 0 ≤ n) : isWord (toString n) := by
  obtain ⟨k, rfl⟩ := Int.eq_ofNat_of_zero_le h
  have htext : (toString (k : Int)).toList = Nat.toDigits 10 k := by
    show (toString k).toList = _
    rw [Nat.toString_eq_ofList_toDigits, String.toList_ofList]
  rw [isWord_iff, htext]
  refine ⟨Nat.toDigits_ne_nil, fun c hc => ?_⟩
  simp [isWordChar, Char.isAlphanum, isDigit_toDigits k c hc]

theorem isPlain_block {c : Config} (h : c.IsUsable) : c.block.isPlain := by
  have hlevels : ∀ level ∈ levels, isWord level := by decide
  have hversion : isWord (toString c.version) := isWord_toString (by rw [h.version]; decide)
  have hmode : isWord c.extend.mode.text := by cases c.extend.mode <;> decide
  have hbool : ∀ b : Bool, isWord (toString b) := by decide
  have hkeys : ["version", "extend", "logging", "mode", "trim_limit", "strip_placeholders",
      "check_media", "console", "level"].all isKey := by decide
  simp only [List.all_cons, List.all_nil, Bool.and_eq_true] at hkeys
  simp only [block, extendBlock, consoleBlock, Block.isPlain, hkeys, hversion, hmode, hbool,
    isWord_toString h.trimLimit, hlevels _ h.level]
  rfl

section Fields

variable {σ : Type} {s : σ} (line : Nat)

theorem wholeDecoder_plain {set : Int → σ → σ} {n : Int} (h : 0 ≤ n)
    (hlt : n < (signedLimit : Int)) :
    wholeDecoder set (.plain line (toString n)) s = .ok (set n s, []) := by
  obtain ⟨k, rfl⟩ := Int.eq_ofNat_of_zero_le h
  have hmeaning : resolvePlain (toString (k : Int)) = .whole k :=
    resolvePlain_toString (n := k) (by simp only [signedLimit, unsignedLimit] at hlt ⊢; omega)
  have htake : wholeOf? (.whole k) = some (k : Int) := by
    rw [wholeOf?]
    exact if_pos hlt
  refine scalarDecoder_plain line (by rw [hmeaning]; exact nofun) ?_
  rw [hmeaning, htake]
  rfl

theorem truthDecoder_plain {set : Bool → σ → σ} (b : Bool) :
    truthDecoder set (.plain line (toString b)) s = .ok (set b s, []) := by
  have hmeaning := resolvePlain_toString_bool b
  exact scalarDecoder_plain line (by simp [hmeaning]) (by simp [hmeaning, truthOf?])

variable {o : ExtendOptions} {c : Config} {entries : List (Node × Node)}

theorem modeDecoder_plain (mode : Mode) (o : ExtendOptions) :
    modeDecoder (.plain line mode.text) o = .ok ({ o with mode }, []) := by
  have htext : resolvePlain mode.text ≠ .nothing := by simp [resolvePlain_mode]
  rw [modeDecoder, choiceDecoder, scalarDecoder_plain line htext]
  simp [ofText?_text]

theorem extendDecoder_block (h : 0 ≤ o.trimLimit) (hlt : o.trimLimit < (signedLimit : Int))
    (hentries : (extendBlock o).Describes entries) (o' : ExtendOptions) :
    extendDecoder (.mapping line "!!map" entries) o' = .ok (o, []) := by
  refine Block.Decodes.recordDecoder ?_ ?_ ?_ line hentries
  · exact .word rfl (modeDecoder_plain · o.mode o') <|
      .word rfl (wholeDecoder_plain · h hlt) <|
      .word rfl (truthDecoder_plain · _) <|
      .word rfl (truthDecoder_plain · _) .nil
  · simp [extendBlock, Block.keys]
  · simp only [extendBlock, Block.keys]
    decide

theorem consoleDecoder_block {level : String} (h : level ∈ levels)
    (hentries : (consoleBlock level).Describes entries) (level' : String) :
    consoleDecoder (.mapping line "!!map" entries) level' = .ok (level, []) := by
  have htext := resolvePlain_level h
  refine Block.Decodes.recordDecoder ?_ (by simp [consoleBlock, Block.keys]) ?_ line hentries
  · exact .word rfl (fun line => scalarDecoder_plain line (by simp [htext]) rfl) .nil
  · simp only [consoleBlock, Block.keys]
    decide

/-- The mapping of a usable configuration sets every field. -/
theorem decoder_block (h : c.IsUsable) (hentries : c.block.Describes entries)
    (c' : Config) : decoder (.mapping line "!!map" entries) c' = .ok (c, []) := by
  have hlogging (line : Nat) (entries : List (Node × Node)) (level' : String)
      (hentries : (Block.nested "console" (consoleBlock c.level) .nil).Describes entries) :
      loggingDecoder (.mapping line "!!map" entries) level' = .ok (c.level, []) := by
    refine Block.Decodes.recordDecoder ?_ (by simp [Block.keys]) ?_ line hentries
    · exact .nested rfl
        (fun line _ hentries => consoleDecoder_block line h.level hentries level') .nil
    · simp only [Block.keys]
      decide
  refine Block.Decodes.recordDecoder ?_ ?_ ?_ line hentries
  · exact .word rfl
        (wholeDecoder_plain · (by rw [h.version]; decide) (by rw [h.version]; decide)) <|
      .nested rfl (fun line _ hentries =>
        within_of_ok (extendDecoder_block line h.trimLimit h.trimLimit_lt hentries _)) <|
      .nested rfl (fun line _ hentries => within_of_ok (hlogging line _ _ hentries)) .nil
  · simp [block, Block.keys]
  · simp only [block, Block.keys]
    decide

end Fields

/-- Laid over any configuration, the text of a usable configuration gives that configuration. -/
theorem overlay_render {c : Config} (h : c.IsUsable) (c' : Config) :
    overlay c.render.toList c' = .ok c := by
  obtain ⟨line, entries, hentries, hdocument⟩ := document_text (isPlain_block h) (by simp [block])
  rw [toList_render, overlay, hdocument]
  simp only [decoder_block line h hentries c']

theorem not_isBlank_render (c : Config) : c.render.toList.all Text.isBlank = false := by
  have hmem : 'v' ∈ c.render.toList := by
    rw [toList_render]
    simp [block, Block.text]
  rw [List.all_eq_false]
  exact ⟨'v', hmem, by decide⟩

theorem read_render {c : Config} (h : c.IsUsable) : read c.render = .ok c := by
  have hfaults : c.faults = [] := faults_eq_nil_iff.2 ⟨h.version, h.trimLimit, h.level⟩
  rw [read_eq, if_neg (by simp [not_isBlank_render]), overlay_render h {}]
  show check c = .ok c
  rw [check, hfaults]

/-- The configuration that is built in can be used, whatever is read can be used, and what can be
used is read back. -/
theorem read_render_of_isUsable :
    (readBuiltIn = .ok {} ∧ IsUsable {}) ∧ (∀ text c, read text = .ok c → c.IsUsable) ∧
      ∀ c : Config, c.IsUsable → read c.render = .ok c :=
  ⟨⟨readBuiltIn_eq, rfl, rfl, by decide, by decide, by decide⟩, fun _ _ => isUsable_of_read,
    fun _ => read_render⟩

/-- The greatest limit, and no field but the version at its default. -/
theorem read_render_greatest :
    IsUsable ⟨1, ⟨.replace, 9223372036854775807, false, false⟩, "debug"⟩ ∧
      read (render ⟨1, ⟨.replace, 9223372036854775807, false, false⟩, "debug"⟩) =
        .ok ⟨1, ⟨.replace, 9223372036854775807, false, false⟩, "debug"⟩ :=
  have h : IsUsable ⟨1, ⟨.replace, 9223372036854775807, false, false⟩, "debug"⟩ :=
    ⟨rfl, rfl, by decide, by decide, by decide⟩
  ⟨h, read_render_of_isUsable.2.2 _ h⟩

end Config

end SelectorCalculus
