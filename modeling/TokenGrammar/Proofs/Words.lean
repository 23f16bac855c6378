import TokenGrammar.Text.Blank

/-!
# Words and their parts

A text can be put together from words with blanks around them in many ways, but it comes apart in
one: no two words touch, and no word contains a blank. In the same way a word that is divided at its
first separator tells both parts, whatever stands in the second of them. Reading is in both cases
the one function whose results can be put together to give the text again.

## Main definitions

* `uncut`: a text from the two parts at its first separator.
* `Blank`, `Solid`: texts of blanks only, and texts without a blank.
* `Spaced`: texts that are made of given words with blanks around them.
-/
namespace TokenGrammar.Text

/-! ## Parts -/

/-- A text from what stands before its first separator and what stands after it, if there is one. -/
def uncut (sep : Char) (before : List Char) : Option (List Char) → List Char
  | none => before
  | some after => before ++ sep :: after

theorem uncut_cut (sep : Char) (cs : List Char) : uncut sep (cut sep cs).1 (cut sep cs).2 = cs := by
  induction cs with
  | nil => rfl
  | cons c cs ih =>
    by_cases h : c = sep
    · subst h
      rw [cut_cons_self]
      rfl
    · rw [cut_cons_of_ne h]
      cases hcut : (cut sep cs).2 <;> rw [hcut] at ih <;> exact congrArg (c :: ·) ih

theorem notMem_fst_cut (sep : Char) (cs : List Char) : sep ∉ (cut sep cs).1 := by
  induction cs with
  | nil => exact List.not_mem_nil
  | cons c cs ih =>
    by_cases h : c = sep
    · rw [h, cut_cons_self]
      exact List.not_mem_nil
    · rw [cut_cons_of_ne h]
      exact List.not_mem_cons_of_ne_of_not_mem (Ne.symm h) ih

theorem cut_uncut {sep : Char} {before : List Char} (h : sep ∉ before)
    (after : Option (List Char)) : cut sep (uncut sep before after) = (before, after) := by
  induction before with
  | nil => cases after <;> simp [uncut]
  | cons c cs ih =>
    obtain ⟨hne, hcs⟩ := List.ne_and_not_mem_of_not_mem_cons h
    have hcons : uncut sep (c :: cs) after = c :: uncut sep cs after := by cases after <;> rfl
    rw [hcons, cut_cons_of_ne (Ne.symm hne), ih hcs]

/-- Every text has two parts. -/
theorem exists_uncut (sep : Char) (cs : List Char) :
    ∃ before after, sep ∉ before ∧ uncut sep before after = cs :=
  ⟨_, _, notMem_fst_cut sep cs, uncut_cut sep cs⟩

/-! ## Words -/

/-- A text of blanks only. -/
def Blank (cs : List Char) : Prop := ∀ c ∈ cs, isBlank c = true

/-- A text without a blank. -/
def Solid (cs : List Char) : Prop := ∀ c ∈ cs, isBlank c = false

/-- A text is made of words in order, with blanks before, between and after them: a word ends at a
blank or at the end of the text. -/
inductive Spaced : List (List Char) → List Char → Prop
  | nil : Spaced [] []
  | blank {c : Char} {ws : List (List Char)} {cs : List Char} (blank : isBlank c = true)
      (rest : Spaced ws cs) : Spaced ws (c :: cs)
  | word {w : List Char} {ws : List (List Char)} {cs : List Char} (nonempty : w ≠ [])
      (solid : Solid w) (ends : ∀ c ∈ cs.head?, isBlank c = true) (rest : Spaced ws cs) :
      Spaced (w :: ws) (w ++ cs)

variable {c : Char} {ws ws' : List (List Char)} {cs cs' gap : List Char}

theorem words_cons_of_blank (h : isBlank c = true) (cs : List Char) :
    words (c :: cs) = words cs := by
  rw [words_cons, if_pos h]

/-- A character that stands alone is a word. -/
theorem joinWord_of_ends (c : Char) (h : ∀ d ∈ cs.head?, isBlank d = true)
    (ws : List (List Char)) : joinWord c cs ws = [c] :: ws := by
  cases cs with
  | nil => rfl
  | cons d ds =>
    cases ws with
    | nil => rfl
    | cons w ws =>
      have hd : isBlank d = true := h d rfl
      simp only [joinWord, hd, if_true]

/-- A word in front of a blank, or of nothing, is the first of the words. -/
theorem words_append {w : List Char} (hne : w ≠ []) (hw : Solid w)
    (h : ∀ d ∈ cs.head?, isBlank d = true) : words (w ++ cs) = w :: words cs := by
  induction w with
  | nil => exact absurd rfl hne
  | cons c w ih =>
    obtain ⟨hc, hrest⟩ := List.forall_mem_cons.mp hw
    rw [List.cons_append, words_cons, hc, if_neg Bool.false_ne_true]
    cases w with
    | nil => exact joinWord_of_ends c h (words cs)
    | cons d w =>
      have hd : isBlank d = false := hrest d List.mem_cons_self
      rw [ih (List.cons_ne_nil d w) hrest, List.cons_append, joinWord]
      simp only [hd, Bool.false_eq_true, if_false]

theorem Spaced.words_eq (h : Spaced ws cs) : words cs = ws := by
  induction h with
  | nil => rfl
  | blank hc _ ih => rw [words_cons_of_blank hc, ih]
  | word hne hw hends _ ih => rw [words_append hne hw hends, ih]

/-- Every text is made of its words. -/
theorem spaced_words (cs : List Char) : Spaced (words cs) cs := by
  induction cs with
  | nil => exact .nil
  | cons c cs ih =>
    rw [words_cons]
    split
    · next hc => exact .blank hc ih
    · next hc =>
      have hsolid : isBlank c = false := Bool.eq_false_iff.mpr hc
      have halone : Solid [c] := List.forall_mem_singleton.mpr hsolid
      by_cases hends : ∀ d ∈ cs.head?, isBlank d = true
      · rw [joinWord_of_ends c hends]
        exact .word (List.cons_ne_nil c []) halone hends ih
      · -- the character joins the word that starts next
        generalize words cs = ws at ih ⊢
        cases ih with
        | nil => exact absurd (by rintro _ ⟨⟩) hends
        | blank hd => exact absurd (by rintro _ ⟨⟩; exact hd) hends
        | @word w ws cs hne hw hafter rest =>
          obtain ⟨d, w, rfl⟩ := List.exists_cons_of_ne_nil hne
          have hd : isBlank d = false := hw d List.mem_cons_self
          rw [List.cons_append, joinWord]
          simp only [hd, Bool.false_eq_true, if_false]
          exact .word (List.cons_ne_nil c _) (List.forall_mem_cons.mpr ⟨hsolid, hw⟩) hafter rest

/-- A text comes apart into words in one way. -/
theorem words_eq_iff : words cs = ws ↔ Spaced ws cs :=
  ⟨fun h => h ▸ spaced_words cs, Spaced.words_eq⟩

theorem Spaced.word_ne_nil (h : Spaced ws cs) : ∀ w ∈ ws, w ≠ [] ∧ Solid w := by
  induction h with
  | nil => exact List.forall_mem_nil _
  | blank _ _ ih => exact ih
  | word hne hw _ _ ih => exact List.forall_mem_cons.mpr ⟨⟨hne, hw⟩, ih⟩

/-- A text without a blank is a word, unless it is empty. -/
theorem Solid.spaced (hw : Solid cs) (hne : cs ≠ []) : Spaced [cs] cs := by
  have hend : Spaced [cs] (cs ++ []) := .word hne hw (by rintro _ ⟨⟩) .nil
  rwa [List.append_nil] at hend

/-- Blanks in front of a text change nothing. -/
theorem Spaced.lead (hgap : Blank gap) (h : Spaced ws cs) : Spaced ws (gap ++ cs) := by
  induction gap with
  | nil => exact h
  | cons c gap ih =>
    obtain ⟨hc, hrest⟩ := List.forall_mem_cons.mp hgap
    exact .blank hc (ih hrest)

/-- Two texts with a blank between them have the words of both. -/
theorem Spaced.append (h : Spaced ws cs) (hc : isBlank c = true) (h' : Spaced ws' cs') :
    Spaced (ws ++ ws') (cs ++ c :: cs') := by
  induction h with
  | nil => exact .blank hc h'
  | blank hd _ ih => exact .blank hd ih
  | @word w ws cs hne hw hends _ ih =>
    rw [List.append_assoc]
    refine .word hne hw ?_ ih
    cases cs with
    | nil =>
      rintro _ ⟨⟩
      exact hc
    | cons d ds => exact hends

/-- Words, each with the blanks after it, of which only the last word may have none. -/
theorem spaced_flatMap {α : Type} (word : α → List Char) {entries : List (α × List Char)}
    (hentries : ∀ p ∈ entries, word p.1 ≠ [] ∧ Solid (word p.1) ∧ Blank p.2)
    (hgaps : ∀ p ∈ entries.dropLast, p.2 ≠ []) :
    Spaced (entries.map fun p => word p.1) (entries.flatMap fun p => word p.1 ++ p.2) := by
  induction entries with
  | nil => exact .nil
  | cons p rest ih =>
    obtain ⟨⟨hne, hsolid, hblank⟩, hrest⟩ := List.forall_mem_cons.mp hentries
    rw [List.map_cons, List.flatMap_cons, List.append_assoc]
    cases rest with
    | nil =>
      refine .word hne hsolid ?_ (.lead hblank .nil)
      intro c hc
      rw [List.flatMap_nil, List.append_nil] at hc
      exact hblank c (List.mem_of_mem_head? hc)
    | cons q rest =>
      rw [List.dropLast_cons_cons] at hgaps
      obtain ⟨hgap, hgaps⟩ := List.forall_mem_cons.mp hgaps
      refine .word hne hsolid ?_ (.lead hblank (ih hrest hgaps))
      obtain ⟨d, gap, hp⟩ := List.exists_cons_of_ne_nil hgap
      rw [hp]
      rintro _ ⟨⟩
      exact hblank d (hp ▸ List.mem_cons_self)

end TokenGrammar.Text
