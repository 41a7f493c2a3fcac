import Mathlib
import TropicalAlgebra.AlgebraName.Parse

/-!
# Spellings of the names

A name is spelled by its letters in either case, with any number of separators before, between and
after them, and with blanks outside of all these. `parse_iff_spelled` says that a text is read as
a name exactly if it spells that name. A tab or a line break is thus no separator: it is
allowed at the ends of a text, but neither between two letters nor inside of a hyphen.
-/

namespace TropicalAlgebra

open Computability

/-! ### Texts without their outer blanks -/

namespace Text

variable {u v w : List Char}

theorem trim_append_left (blank : ∀ c ∈ u, isBlank c) : trim (u ++ v) = trim v := by
  simp [trim, List.dropWhile_append_of_pos blank]

theorem trim_append_right (blank : ∀ c ∈ w, isBlank c) : trim (v ++ w) = trim v := by
  have back : ∀ c ∈ w.reverse, isBlank c := by simpa using blank
  by_cases all : v.dropWhile isBlank = []
  · -- all of `v` is blank, so that `w` is dropped from the front together with it
    simp [trim, List.dropWhile_append, all, List.dropWhile_eq_nil_iff.mpr blank]
  · simp [trim, List.dropWhile_append, all, List.dropWhile_append_of_pos back]

/-- A text is its trimmed part with blanks on both sides. -/
theorem exists_append_trim_append (v : List Char) :
    ∃ u w, (∀ c ∈ u, isBlank c) ∧ (∀ c ∈ w, isBlank c) ∧ u ++ trim v ++ w = v := by
  let rest := (v.dropWhile isBlank).reverse
  have back : trim v ++ (rest.takeWhile isBlank).reverse = v.dropWhile isBlank := by
    simp [rest, trim, ← List.reverse_append]
  refine ⟨v.takeWhile isBlank, (rest.takeWhile isBlank).reverse, ?_, ?_, ?_⟩
  · exact fun c member => List.mem_takeWhile_imp member
  · exact fun c member => List.mem_takeWhile_imp (List.mem_reverse.mp member)
  · rw [List.append_assoc, back, List.takeWhile_append_dropWhile]

end Text

namespace AlgebraName

/-! ### Spellings -/

/-- The texts of a single character with the given property. -/
def oneOf (p : Char → Prop) : Language Char := {w | ∃ c, p c ∧ w = [c]}

def separator : Language Char := oneOf (· ∈ ['-', '_', ' '])

def blank : Language Char := oneOf (Text.isBlank ·)

/-- A lower-case letter or its capital. -/
def eitherCase (l : Char) : Language Char := oneOf fun c => c = l ∨ c = l.toUpper

/-- The letters one after the other, with separators before, between and after them. -/
def spaced (ls : List Char) : Language Char :=
  (ls.map fun l => separator∗ * eitherCase l).prod * separator∗

/-- A name as a single word. -/
def word : AlgebraName → String
  | maxPlus => "maxplus"
  | minPlus => "minplus"
  | maxTimes => "maxtimes"
  | minTimes => "mintimes"

/-- The texts that spell a name. -/
def spellings (n : AlgebraName) : Language Char := blank∗ * spaced n.word.toList * blank∗

variable {c l : Char} {ls v w : List Char} {n : AlgebraName}

theorem mem_kstar_oneOf {p : Char → Prop} : w ∈ (oneOf p)∗ ↔ ∀ c ∈ w, p c := by
  rw [Language.mem_kstar]
  constructor
  · rintro ⟨parts, rfl, each⟩ c member
    obtain ⟨part, inParts, inPart⟩ := List.mem_flatten.mp member
    obtain ⟨c', holds, rfl⟩ := each part inParts
    rwa [List.mem_singleton.mp inPart]
  · intro holds
    refine ⟨w.map ([·]), by simp [← List.flatMap_def], fun part member => ?_⟩
    obtain ⟨c, inText, rfl⟩ := List.mem_map.mp member
    exact ⟨c, holds c inText, rfl⟩

theorem mem_kstar_separator : w ∈ separator∗ ↔ ∀ c ∈ w, isSeparator c := by
  simp [separator, mem_kstar_oneOf, isSeparator, or_assoc]

theorem mem_kstar_blank : w ∈ blank∗ ↔ ∀ c ∈ w, Text.isBlank c := mem_kstar_oneOf

/-! ### Letters -/

theorem toLower_eq_iff (lower : l.isLower) : c.toLower = l ↔ c = l ∨ c = l.toUpper := by
  have fixed : l.toLower = l := Char.toLower_eq_of_not_isUpper (Char.not_isUpper_of_isLower lower)
  constructor
  · rintro rfl
    by_cases upper : c.isUpper
    · simp [Char.toUpper_eq_of_not_isLower (Char.not_isLower_of_isUpper upper)]
    · simp [Char.toLower_eq_of_not_isUpper upper]
  · rintro (rfl | rfl)
    · exact fixed
    · simp [fixed]

theorem isSeparator_eq_false_of_isAlpha (letter : c.isAlpha) : isSeparator c = false := by
  by_contra separator
  simp only [isSeparator, Bool.not_eq_false, Bool.or_eq_true, beq_iff_eq] at separator
  rcases separator with (rfl | rfl) | rfl <;> exact absurd letter (by decide)

theorem isBlank_eq_false_of_isAlpha (letter : c.isAlpha) : Text.isBlank c = false := by
  have bounds : 65 ≤ c.toNat ∧ c.toNat ≤ 90 ∨ 97 ≤ c.toNat ∧ c.toNat ≤ 122 := by
    simpa [Char.isAlpha, Char.isUpper, Char.isLower, UInt32.le_iff_toNat_le] using letter
  simp [Text.isBlank, Text.blankRanges]
  omega

theorem isAlpha_of_toLower_eq (lower : l.isLower) (same : c.toLower = l) : c.isAlpha := by
  rw [← Char.isLower_toLower_eq_isAlpha, same, lower]

theorem isLower_of_mem_word (n : AlgebraName) : ∀ l ∈ n.word.toList, l.isLower := by
  cases n <;> simp [word]

/-- What is left of a spaced word without its separators. -/
theorem mem_spaced_iff (lower : ∀ l ∈ ls, l.isLower) :
    w ∈ spaced ls ↔ (w.filter fun c => !isSeparator c).map Char.toLower = ls := by
  -- the first letter of the word splits the text
  induction ls generalizing w with
  | nil => simp [spaced, mem_kstar_separator]
  | cons l ls ih =>
    have letter := lower l List.mem_cons_self
    have rest := fun v => ih (w := v) fun l member => lower l (List.mem_cons_of_mem _ member)
    have unfolded : spaced (l :: ls) = separator∗ * (eitherCase l * spaced ls) := by
      simp [spaced, mul_assoc]
    rw [unfolded, List.map_eq_cons_iff]
    constructor
    · intro spelled
      obtain ⟨s, separators, _, tail, rfl⟩ := Language.mem_mul.mp spelled
      obtain ⟨_, ⟨c, cased, rfl⟩, v, remaining, rfl⟩ := Language.mem_mul.mp tail
      have same := (toLower_eq_iff letter).mpr cased
      have kept := isSeparator_eq_false_of_isAlpha (isAlpha_of_toLower_eq letter same)
      have dropped := mem_kstar_separator.mp separators
      have filtered : (s ++ ([c] ++ v)).filter (fun c => !isSeparator c) =
          c :: v.filter fun c => !isSeparator c := by
        simpa [kept] using dropped
      exact ⟨c, _, filtered, same, (rest v).mp remaining⟩
    · rintro ⟨c, _, filtered, same, remaining⟩
      obtain ⟨s, v, rfl, dropped, -, rfl⟩ := List.filter_eq_cons_iff.mp filtered
      have separators : s ∈ separator∗ := mem_kstar_separator.mpr (by simpa using dropped)
      have cased : [c] ∈ eitherCase l := ⟨c, (toLower_eq_iff letter).mp same, rfl⟩
      exact Language.append_mem_mul separators
        (Language.append_mem_mul cased ((rest v).mpr remaining))

/-- In a spaced word the spaces are the only blanks. -/
theorem isSeparator_of_mem_spaced (lower : ∀ l ∈ ls, l.isLower) (spelled : v ∈ spaced ls)
    (member : c ∈ v) (blank : Text.isBlank c) : isSeparator c := by
  by_contra kept
  rw [mem_spaced_iff lower] at spelled
  have letter : c.toLower ∈ ls := by
    rw [← spelled]
    exact List.mem_map_of_mem (List.mem_filter.mpr ⟨member, by simpa using kept⟩)
  have alphabetic := isAlpha_of_toLower_eq (lower _ letter) rfl
  simp [isBlank_eq_false_of_isAlpha alphabetic] at blank

/-- Trimming takes only separators off a spaced word. -/
theorem trim_mem_spaced (lower : ∀ l ∈ ls, l.isLower) (spelled : v ∈ spaced ls) :
    Text.trim v ∈ spaced ls := by
  obtain ⟨u, w, front, back, whole⟩ := Text.exists_append_trim_append v
  have separators : ∀ c ∈ u ++ Text.trim v ++ w, Text.isBlank c → isSeparator c :=
    fun c member => isSeparator_of_mem_spaced lower spelled (whole ▸ member)
  have dropFront : u.filter (fun c => !isSeparator c) = [] := by
    simpa using fun c member => separators c (by simp [member]) (front c member)
  have dropBack : w.filter (fun c => !isSeparator c) = [] := by
    simpa using fun c member => separators c (by simp [member]) (back c member)
  rw [← whole, mem_spaced_iff lower] at spelled
  rw [mem_spaced_iff lower]
  simpa [dropFront, dropBack] using spelled

theorem mem_spellings_iff : w ∈ n.spellings ↔ Text.trim w ∈ spaced n.word.toList := by
  constructor
  · intro spelled
    obtain ⟨_, front, z, back, rfl⟩ := Language.mem_mul.mp spelled
    obtain ⟨u, blanks, v, core, rfl⟩ := Language.mem_mul.mp front
    rw [Text.trim_append_right (mem_kstar_blank.mp back),
      Text.trim_append_left (mem_kstar_blank.mp blanks)]
    exact trim_mem_spaced n.isLower_of_mem_word core
  · intro core
    obtain ⟨u, z, front, back, whole⟩ := Text.exists_append_trim_append w
    rw [← whole]
    exact Language.append_mem_mul (Language.append_mem_mul (mem_kstar_blank.mpr front) core)
      (mem_kstar_blank.mpr back)

/-! ### Reading -/

section Reading

variable {α : Type} {text : String}

theorem letters_eq_word : ∀ n : AlgebraName, n.letters = n.word.toList := by
  rintro (_ | _ | _ | _) <;> decide

theorem parse_eq_ok_iff_letters :
    (parse text : Outcome α AlgebraName) = .ok n ↔ n.letters = normalize text.toList := by
  constructor
  · intro parsed
    unfold parse at parsed
    split at parsed
    next found =>
      obtain rfl := Except.ok.inj parsed
      simpa using List.find?_some found
    next => cases parsed
  · intro same
    rw [parse, ← same]
    cases n <;> rfl

theorem parse_eq_ok_iff_mem :
    (parse text : Outcome α AlgebraName) = .ok n ↔ text.toList ∈ n.spellings := by
  rw [parse_eq_ok_iff_letters, mem_spellings_iff, mem_spaced_iff n.isLower_of_mem_word,
    letters_eq_word, eq_comm, normalize]

theorem parse_eq_error_iff :
    (parse text : Outcome α AlgebraName) = .error (.configuration (.unknownAlgebra text)) ↔
      ∀ n : AlgebraName, text.toList ∉ n.spellings := by
  simp only [← parse_eq_ok_iff_mem (α := α)]
  unfold parse
  split <;> simp

theorem word_injective : Function.Injective word := by
  intro m n same
  cases m <;> cases n <;> simp_all [word]

theorem eq_of_mem_spellings {m n : AlgebraName} (left : w ∈ m.spellings)
    (right : w ∈ n.spellings) : m = n := by
  rw [mem_spellings_iff, mem_spaced_iff (isLower_of_mem_word _)] at left right
  exact word_injective (String.toList_inj.mp (left.symm.trans right))

theorem parse_text (n : AlgebraName) : (parse n.text : Outcome α AlgebraName) = .ok n := by
  cases n <;> rfl

theorem text_mem_spellings (n : AlgebraName) : n.text.toList ∈ n.spellings :=
  parse_eq_ok_iff_mem.mp (parse_text (α := Float) n)

theorem disjoint_spellings_iff {m n : AlgebraName} :
    Disjoint m.spellings n.spellings ↔ m ≠ n := by
  constructor
  · rintro apart rfl
    exact Set.disjoint_left.mp apart m.text_mem_spellings m.text_mem_spellings
  · intro different
    exact Set.disjoint_left.mpr fun _ left right => different (eq_of_mem_spellings left right)

theorem message_unknownAlgebra [Written α] :
    (Error.configuration (.unknownAlgebra text) : Error α).message =
      "Configuration error: unknown algebra '" ++ text ++
        "', expected one of max-plus, min-plus, max-times, min-times" := by
  have listed : algebraList = "max-plus, min-plus, max-times, min-times" := by decide +kernel
  calc (Error.configuration (.unknownAlgebra text) : Error α).message
      = "Configuration error: " ++ ("unknown algebra '" ++ text ++
          "', expected one of " ++ algebraList) := rfl
    _ = _ := by
      rw [listed, ← String.toList_inj]
      simp

/-- Exactly the spellings of a name are read as that name; any other text is refused with a message
that quotes it. No text spells two names, and a name in its listed form is read as itself. -/
theorem parse_iff_spelled [Written α] (text : String) (m n : AlgebraName) :
    ((parse text : Outcome α AlgebraName) = .ok n ↔ text.toList ∈ n.spellings) ∧
      ((parse text : Outcome α AlgebraName) = .error (.configuration (.unknownAlgebra text)) ↔
        ∀ k : AlgebraName, text.toList ∉ k.spellings) ∧
      (Error.configuration (.unknownAlgebra text) : Error α).message =
        "Configuration error: unknown algebra '" ++ text ++
          "', expected one of max-plus, min-plus, max-times, min-times" ∧
      (Disjoint m.spellings n.spellings ↔ m ≠ n) ∧
      (parse n.text : Outcome α AlgebraName) = .ok n :=
  ⟨parse_eq_ok_iff_mem, parse_eq_error_iff, message_unknownAlgebra, disjoint_spellings_iff,
    parse_text n⟩

-- a line break is dropped before a hyphen and refused after it
example : (parse "\n-Max_ PLUS\t" : Outcome Float AlgebraName) = .ok maxPlus ∧
    (parse "-\nMax_ PLUS\t" : Outcome Float AlgebraName) =
      .error (.configuration (.unknownAlgebra "-\nMax_ PLUS\t")) := ⟨rfl, rfl⟩

end Reading

end AlgebraName

end TropicalAlgebra
