import Mathlib.Data.List.Basic
import TokenGrammar.Tag

/-!
# Spellings of a tag

A tag of several words is written with a separator of any choice between two words, or with a
capital at the start of each word and nothing between them. The pass over the characters turns the
first way of writing into the second, since a separator does nothing but ask for the capital that
the second way has anyway, and it keeps the second as it is, since a capital stays whether or not
one is asked for. The words can be read off their capitals again, so no two lists of words share a
tag.

The abbreviation is expanded before the pass, and among all these spellings it is one: the words `i`
and `d` without a separator. Only there do the two ways of writing give two tags, and only there is
the tag of the first not a normal form.

## Main definitions

* `Word`, `Gap`, `Phrase`: words, what may stand between two of them, and words with such gaps.
* `Phrase.joined`, `capitals`: the two ways of writing words as a tag.

## Main results

* `Phrase.camel_joined`, `camel_capitals`: the pass over the characters.
* `capitals_injective`: what is written with capitals tells its words.
* `Phrase.normalize_joined`, `normalize_capitals`: the tags of the two spellings.
-/
namespace TokenGrammar.Tag

variable {capital : Bool} {c : Char} {cs after : List Char}

/-! ## Letters -/

theorem isLetter_of_isLower (h : c.isLower = true) : isLetter c = true := by
  rw [isLetter, h, Bool.or_true]

theorem isUpper_iff : c.isUpper = true ↔ 65 ≤ c.toNat ∧ c.toNat ≤ 90 := by
  delta Char.isUpper
  simp [UInt32.le_iff_toNat_le]

theorem isLower_iff : c.isLower = true ↔ 97 ≤ c.toNat ∧ c.toNat ≤ 122 := by
  delta Char.isLower
  simp [UInt32.le_iff_toNat_le]

/-- The codes that a capital is made for are those of the small letters. -/
theorem inRange_iff : ('a'.val ≤ c.val ∧ c.val ≤ 'z'.val) ↔ c.isLower = true := by
  rw [isLower_iff]
  simp [UInt32.le_iff_toNat_le]

/-- A small letter and its capital are 32 codes apart. -/
theorem toNat_toUpper (h : c.isLower = true) : c.toUpper.toNat + 32 = c.toNat := by
  have hrange := isLower_iff.mp h
  have hval : c.toUpper.val = c.val + ('A'.val - 'a'.val) := by
    delta Char.toUpper
    rw [dif_pos (inRange_iff.mpr h)]
  -- the difference of the two codes is added as a machine word
  have hshift : ('A'.val - 'a'.val).toNat = 4294967264 := by decide
  rw [← Char.toNat_val] at hrange ⊢
  rw [← Char.toNat_val, hval, UInt32.toNat_add]
  omega

theorem isLetter_toUpper (h : c.isLower = true) : isLetter c.toUpper = true := by
  have hrange := isLower_iff.mp h
  have hcapital := toNat_toUpper h
  rw [isLetter, Bool.or_eq_true, isUpper_iff]
  omega

theorem isLower_toUpper (h : c.isLower = true) : c.toUpper.isLower = false := by
  have hrange := isLower_iff.mp h
  have hcapital := toNat_toUpper h
  rw [Bool.eq_false_iff, Ne, isLower_iff]
  omega

/-- A capital is its own capital. -/
theorem toUpper_toUpper (h : c.isLower = true) : c.toUpper.toUpper = c.toUpper := by
  have hcapital : ¬ ('a'.val ≤ c.toUpper.val ∧ c.toUpper.val ≤ 'z'.val) := by
    rw [inRange_iff, isLower_toUpper h]
    exact Bool.false_ne_true
  exact dif_neg hcapital

/-- A small letter can be read off its capital. -/
theorem eq_of_toUpper_eq {d : Char} (hc : c.isLower = true) (hd : d.isLower = true)
    (h : c.toUpper = d.toUpper) : c = d := by
  have hcapital := toNat_toUpper hc
  rw [h, toNat_toUpper hd] at hcapital
  exact (Char.toNat_inj.mp hcapital).symm

/-- No letter is a blank. -/
theorem isBlank_of_isLetter (h : isLetter c = true) : Text.isBlank c = false := by
  rw [isLetter, Bool.or_eq_true, isUpper_iff, isLower_iff] at h
  simp [Text.isBlank]
  omega

/-! ## The pass over the characters -/

theorem camel_cons_of_isLetter (h : isLetter c = true) :
    camel capital (c :: cs) = (if capital then c.toUpper else c) :: camel false cs := by
  rw [camel, if_pos h]

/-- Small letters stay small where no capital is pending. -/
theorem camel_append_of_isLower (h : ∀ c ∈ cs, c.isLower = true) :
    camel false (cs ++ after) = cs ++ camel false after := by
  induction cs with
  | nil => rfl
  | cons c cs ih =>
    obtain ⟨hc, hcs⟩ := List.forall_mem_cons.mp h
    rw [List.cons_append, camel_cons_of_isLetter (isLetter_of_isLower hc), ih hcs]
    rfl

/-! ## Words -/

/-- A word of a tag: at least one letter, and only small ones. -/
@[ext]
structure Word where
  initial : Char
  rest : List Char
  lower : ∀ c ∈ initial :: rest, c.isLower = true

namespace Word

variable (w : Word)

def letters : List Char := w.initial :: w.rest

/-- The word with a capital at its start. -/
def capitalized : List Char := w.initial.toUpper :: w.rest

theorem initial_lower : w.initial.isLower = true := (List.forall_mem_cons.mp w.lower).1

theorem rest_lower : ∀ c ∈ w.rest, c.isLower = true := (List.forall_mem_cons.mp w.lower).2

/-- A word that starts where a capital is pending gets one. -/
theorem camel_letters : camel true (w.letters ++ after) = w.capitalized ++ camel false after := by
  rw [letters, List.cons_append, camel_cons_of_isLetter (isLetter_of_isLower w.initial_lower),
    camel_append_of_isLower w.rest_lower]
  rfl

/-- A word that has its capital keeps it. -/
theorem camel_capitalized :
    camel capital (w.capitalized ++ after) = w.capitalized ++ camel false after := by
  have hinitial : (if capital then w.initial.toUpper.toUpper else w.initial.toUpper) =
      w.initial.toUpper := by rw [toUpper_toUpper w.initial_lower, ite_self]
  rw [capitalized, List.cons_append, camel_cons_of_isLetter (isLetter_toUpper w.initial_lower),
    hinitial, camel_append_of_isLower w.rest_lower]
  rfl

theorem isLetter_of_mem_capitalized (h : c ∈ w.capitalized) : isLetter c = true := by
  rcases List.mem_cons.mp h with rfl | hrest
  · exact isLetter_toUpper w.initial_lower
  · exact isLetter_of_isLower (w.rest_lower c hrest)

end Word

/-! ## Words with capitals -/

/-- Words one after the other, each with a capital at its start. -/
def capitals (ws : List Word) : List Char := ws.flatMap Word.capitalized

theorem capitals_cons (w : Word) (ws : List Word) :
    capitals (w :: ws) = w.initial.toUpper :: (w.rest ++ capitals ws) := rfl

/-- Capitals are kept wherever they stand. -/
theorem camel_capitals (capital : Bool) (ws : List Word) :
    camel capital (capitals ws) = capitals ws := by
  induction ws generalizing capital with
  | nil => rfl
  | cons w ws ih =>
    have hcons : capitals (w :: ws) = w.capitalized ++ capitals ws := rfl
    rw [hcons, w.camel_capitalized, ih]

theorem isBlank_of_mem_capitals {ws : List Word} (h : c ∈ capitals ws) :
    Text.isBlank c = false := by
  obtain ⟨w, -, hc⟩ := List.mem_flatMap.mp h
  exact isBlank_of_isLetter (w.isLetter_of_mem_capitalized hc)

/-- The small letters up to the next capital are the rest of the word. -/
theorem takeWhile_rest (w : Word) (ws : List Word) :
    (w.rest ++ capitals ws).takeWhile Char.isLower = w.rest := by
  have hstop : (capitals ws).takeWhile Char.isLower = [] := by
    cases ws with
    | nil => rfl
    | cons v vs =>
      rw [capitals_cons, List.takeWhile_cons_of_neg (by simp [isLower_toUpper v.initial_lower])]
  rw [List.takeWhile_append_of_pos w.rest_lower, hstop, List.append_nil]

/-- What is written with capitals tells its words: each capital starts one. -/
theorem capitals_injective : Function.Injective capitals := by
  intro ws vs h
  induction ws generalizing vs with
  | nil =>
    cases vs with
    | nil => rfl
    | cons v vs => cases h
  | cons w ws ih =>
    cases vs with
    | nil => cases h
    | cons v vs =>
      obtain ⟨hinitial, hafter⟩ := List.cons.inj h
      have hrest : w.rest = v.rest := by
        rw [← takeWhile_rest w ws, ← takeWhile_rest v vs]
        exact congrArg _ hafter
      rw [hrest] at hafter
      have hword : w = v :=
        Word.ext (eq_of_toUpper_eq w.initial_lower v.initial_lower hinitial) hrest
      rw [hword, ih (List.append_cancel_left hafter)]

/-! ## Words with gaps -/

/-- What may stand between two words: one of the separators. -/
inductive Gap where
  | underscore
  | hyphen
  | space
  | period

def Gap.char : Gap → Char
  | underscore => '_'
  | hyphen => '-'
  | space => ' '
  | period => '.'

/-- A gap leaves nothing but a pending capital. -/
theorem camel_gap (gap : Gap) : camel capital (gap.char :: after) = camel true after := by
  cases gap <;> rfl

/-- Words, at least one, with a gap before each but the first. -/
structure Phrase where
  first : Word
  further : List (Gap × Word)

namespace Phrase

variable (p : Phrase)

def words : List Word := p.first :: p.further.map Prod.snd

/-- A word with the gap before it. -/
def piece (q : Gap × Word) : List Char := q.1.char :: q.2.letters

/-- The words with the characters of the gaps between them. -/
def joined : List Char := p.first.letters ++ p.further.flatMap piece

theorem camel_further (further : List (Gap × Word)) :
    camel false (further.flatMap piece) = capitals (further.map Prod.snd) := by
  induction further with
  | nil => rfl
  | cons q further ih =>
    rw [List.flatMap_cons, piece, List.cons_append, camel_gap, q.2.camel_letters, ih]
    rfl

/-- Whatever the gaps are, each word gets its capital. -/
theorem camel_joined : camel true p.joined = capitals p.words := by
  rw [joined, p.first.camel_letters, camel_further]
  rfl

/-- The last word ends in a small letter, and so does the phrase. -/
theorem isLower_of_mem_getLast?_joined : ∀ c ∈ p.joined.getLast?, c.isLower = true := by
  obtain ⟨w, further⟩ := p
  induction further generalizing w with
  | nil =>
    intro c hc
    rw [joined, List.flatMap_nil, List.append_nil] at hc
    exact w.lower c (List.mem_of_getLast? hc)
  | cons q further ih =>
    have hjoined : (⟨w, q :: further⟩ : Phrase).joined =
        w.letters ++ q.1.char :: (⟨q.2, further⟩ : Phrase).joined := rfl
    rw [hjoined, List.getLast?_append_cons, joined, Word.letters, List.cons_append,
      List.getLast?_cons_cons]
    exact ih q.2

/-- There is nothing to trim from a phrase, though gaps may be blanks. -/
theorem trim_joined : Text.trim p.joined = p.joined := by
  refine Text.trim_eq_self ?_ fun c hc =>
    isBlank_of_isLetter (isLetter_of_isLower (p.isLower_of_mem_getLast?_joined c hc))
  rintro _ ⟨⟩
  exact isBlank_of_isLetter (isLetter_of_isLower p.first.initial_lower)

end Phrase

theorem trim_capitals (ws : List Word) : Text.trim (capitals ws) = capitals ws :=
  Text.trim_eq_self (fun _ hc => isBlank_of_mem_capitals (List.mem_of_head? hc))
    fun _ hc => isBlank_of_mem_capitals (List.mem_of_getLast? hc)

/-! ## Tags -/

/-- A word of one letter. -/
def Word.ofLetter (c : Char) (h : c.isLower = true) : Word :=
  ⟨c, [], List.forall_mem_singleton.mpr h⟩

/-- The words that the abbreviation is written with when nothing stands between them. -/
def abbreviation : List Word := [.ofLetter 'i' rfl, .ofLetter 'd' rfl]

theorem capitals_eq_iff {ws : List Word} : capitals ws = ['I', 'D'] ↔ ws = abbreviation :=
  capitals_injective.eq_iff' rfl

/-- The tag of words with gaps is what their capitals write. -/
theorem Phrase.normalize_joined (p : Phrase) :
    normalize (.ofList p.joined) = .ofList (capitals p.words) := by
  have hsmall : p.joined ≠ ['I', 'D'] := by
    intro h
    have hinitial : p.first.initial = 'I' := (List.cons.inj h).1
    have hlower := p.first.initial_lower
    rw [hinitial] at hlower
    cases hlower
  rw [normalize, String.toList_ofList, trim_joined, expand, if_neg hsmall, camel_joined]

/-- The tag of words with capitals is what they write, unless it is the abbreviation. -/
theorem normalize_capitals (ws : List Word) :
    normalize (.ofList (capitals ws)) =
      if capitals ws = ['I', 'D'] then "Id" else .ofList (capitals ws) := by
  rw [normalize, String.toList_ofList, trim_capitals, expand]
  split
  · rfl
  · rw [camel_capitals]

theorem normalize_capitals_eq_iff {ws : List Word} :
    normalize (.ofList (capitals ws)) = .ofList (capitals ws) ↔ ws ≠ abbreviation := by
  rw [normalize_capitals, Ne, ← capitals_eq_iff]
  constructor
  · intro h heq
    rw [if_pos heq, heq] at h
    exact absurd h (by decide)
  · intro hne
    rw [if_neg hne]

/-- **Spellings of a tag agree, those of one abbreviation apart.** Words with gaps between them have
the tag that their capitals write, whatever the gaps are, and other words have another tag. Written
with capitals and no gaps they have the same tag, and that tag stays as it is when it is normalised
again, both exactly if they are not the words of the abbreviation. The tag of the abbreviation
itself is a normal form as well. -/
theorem Phrase.normalize_spellings (p : Phrase) :
    normalize (.ofList p.joined) = .ofList (capitals p.words) ∧
    (∀ q : Phrase, normalize (.ofList q.joined) = normalize (.ofList p.joined) ↔
      q.words = p.words) ∧
    (normalize (.ofList (capitals p.words)) = normalize (.ofList p.joined) ↔
      p.words ≠ abbreviation) ∧
    (normalize (normalize (.ofList p.joined)) = normalize (.ofList p.joined) ↔
      p.words ≠ abbreviation) ∧
    normalize (normalize (.ofList (capitals p.words))) =
      normalize (.ofList (capitals p.words)) := by
  have hjoined := p.normalize_joined
  refine ⟨hjoined, fun q => ?_, ?_, ?_, ?_⟩
  · rw [q.normalize_joined, hjoined, String.ofList_inj, capitals_injective.eq_iff]
  · rw [hjoined]
    exact normalize_capitals_eq_iff
  · rw [hjoined]
    exact normalize_capitals_eq_iff
  · by_cases h : p.words = abbreviation
    · rw [h]
      rfl
    · rw [normalize_capitals_eq_iff.mpr h]
      exact normalize_capitals_eq_iff.mpr h

example : ["binary_op", "binary-op", "binary op", "BinaryOp"].map normalize =
    ["BinaryOp", "BinaryOp", "BinaryOp", "BinaryOp"] := by decide

/-- The two ways of writing the abbreviation give two tags, and the first of them is changed when it
is normalised again. -/
theorem normalize_abbreviation :
    let p : Phrase := ⟨.ofLetter 'i' rfl, [(.underscore, .ofLetter 'd' rfl)]⟩
    String.ofList p.joined = "i_d" ∧ normalize "i_d" = "ID" ∧
      String.ofList (capitals p.words) = "ID" ∧ normalize "ID" = "Id" ∧
      normalize (.ofList (capitals p.words)) ≠ normalize (.ofList p.joined) ∧
      normalize (normalize (.ofList p.joined)) ≠ normalize (.ofList p.joined) := by
  decide

end TokenGrammar.Tag
