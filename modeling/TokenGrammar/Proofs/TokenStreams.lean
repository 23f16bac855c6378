import TokenGrammar.Proofs.Words
import TokenGrammar.Token.Scan

/-!
# Written token streams

A token stream is written as the spellings of its tokens with blanks between them. Not every token
can be written in this way: its kind has to be there, and neither blanks nor the colon may stand
where they would divide the text elsewhere. On the tokens that can be written, scanning is the
inverse of writing, whatever the blanks are: a text is scanned as the tokens exactly if their
spellings are its words.

## Main definitions

* `Token.spelling`: the word that writes a token.
* `Token.Writable`: the tokens that can be told from their spellings.

## Main results

* `ofWord?_eq_some_iff`: the word of a token.
* `scan_eq_ok_iff`: the texts of a list of tokens.
* `scan_eq_error_iff`: the first word that writes no token.
-/
namespace TokenGrammar

open Text (Blank Solid Spaced uncut words)

namespace Token

/-! ## The word of a token -/

/-- The payload in a word, if there is one. -/
def payload (t : Token) : Option (List Char) :=
  match t.value with
  | .text s => some s.toList
  | _ => none

/-- The word of a token: its kind, or its kind, a colon and its payload. -/
def spelling (t : Token) : List Char := uncut ':' t.kind.toList t.payload

/-- A token that a word can write: it has a kind, its payload is a text if there is one, and no
blank or early colon divides the word. -/
structure Writable (t : Token) : Prop where
  kind_ne : t.kind ≠ ""
  undivided : ':' ∉ t.kind.toList
  kind_solid : Solid t.kind.toList
  value : t.value = .null ∨ ∃ s, t.value = .text s ∧ Solid s.toList

variable {t : Token} {w kind : List Char} {value : Option (List Char)}

theorem ofWord?_uncut (h : ':' ∉ kind) (value : Option (List Char)) :
    ofWord? (uncut ':' kind value) =
      if kind = [] then none
      else some ⟨String.ofList kind, value.elim .null fun v => .text (String.ofList v)⟩ := by
  rw [ofWord?, Text.cut_uncut h]
  cases kind <;> cases value <;> rfl

/-- A word writes no token exactly if it starts with the colon. -/
theorem ofWord?_eq_none_iff (hw : w ≠ []) : ofWord? w = none ↔ w.head? = some ':' := by
  obtain ⟨kind, value, hfree, rfl⟩ := Text.exists_uncut ':' w
  rw [ofWord?_uncut hfree]
  cases kind with
  | nil => cases value <;> simp_all [uncut]
  | cons c kind =>
    have hc : c ≠ ':' := Ne.symm (List.ne_of_not_mem_cons hfree)
    cases value <;> simpa [uncut] using hc

theorem solid_uncut : Solid (uncut ':' kind value) ↔ Solid kind ∧ ∀ v ∈ value, Solid v := by
  have hcolon : Text.isBlank ':' = false := rfl
  cases value with
  | none => simp [uncut]
  | some v => simp [uncut, Solid, or_imp, forall_and, hcolon]

theorem Writable.ofWord?_spelling (h : t.Writable) : ofWord? t.spelling = some t := by
  have hkind : t.kind.toList ≠ [] := fun hnil => h.kind_ne (String.toList_eq_nil_iff.mp hnil)
  have hvalue : (t.payload.elim .null fun v => .text (String.ofList v)) = t.value := by
    rcases h.value with hnull | ⟨s, hs, -⟩
    · rw [payload, hnull]
      rfl
    · rw [payload, hs, Option.elim, String.ofList_toList]
  rw [spelling, ofWord?_uncut h.undivided, if_neg hkind, hvalue, String.ofList_toList]

theorem Writable.spelling_ne_nil (h : t.Writable) : t.spelling ≠ [] := by
  intro hnil
  have hread := h.ofWord?_spelling
  rw [hnil] at hread
  cases hread

theorem Writable.solid_spelling (h : t.Writable) : Solid t.spelling := by
  refine solid_uncut.mpr ⟨h.kind_solid, ?_⟩
  rcases h.value with hnull | ⟨s, hs, hsolid⟩
  · simp [payload, hnull]
  · simpa [payload, hs] using hsolid

/-- A word writes a token exactly if it is its spelling. -/
theorem ofWord?_eq_some_iff (hw : Solid w) :
    ofWord? w = some t ↔ t.Writable ∧ t.spelling = w := by
  constructor
  · intro h
    obtain ⟨kind, value, hfree, rfl⟩ := Text.exists_uncut ':' w
    obtain ⟨hkind, hvalue⟩ := solid_uncut.mp hw
    rw [ofWord?_uncut hfree] at h
    split at h
    · cases h
    · next hne =>
      cases h
      constructor
      · refine ⟨fun hempty => hne (String.ofList_eq_empty_iff.mp hempty), ?_, ?_, ?_⟩
        · rwa [String.toList_ofList]
        · rwa [String.toList_ofList]
        · cases value with
          | none => exact .inl rfl
          | some v =>
            refine .inr ⟨String.ofList v, rfl, ?_⟩
            rw [String.toList_ofList]
            exact hvalue v rfl
      · cases value <;> simp [spelling, payload]
  · rintro ⟨hwritable, rfl⟩
    exact hwritable.ofWord?_spelling

/-! ## The words of a list of tokens -/

variable {ts : List Token} {ws : List (List Char)} {n : Nat} {e : ScanError}

/-- Words are read as tokens exactly if they are the spellings of the tokens. -/
theorem ofWords_eq_ok_iff (hws : ∀ w ∈ ws, Solid w) :
    ofWords n ws = .ok ts ↔ (∀ t ∈ ts, t.Writable) ∧ ts.map spelling = ws := by
  induction ws generalizing n ts with
  | nil =>
    rw [List.map_eq_nil_iff]
    constructor
    · intro h
      cases h
      exact ⟨List.forall_mem_nil _, rfl⟩
    · rintro ⟨-, rfl⟩
      rfl
  | cons w ws ih =>
    obtain ⟨hw, hrest⟩ := List.forall_mem_cons.mp hws
    constructor
    · intro h
      rw [ofWords] at h
      split at h
      · cases h
      · next t hword =>
        obtain ⟨ht, hspelling⟩ := (ofWord?_eq_some_iff hw).mp hword
        cases hlater : ofWords (n + 1) ws with
        | error e => rw [hlater] at h; cases h
        | ok later =>
          rw [hlater] at h
          cases h
          obtain ⟨hall, hmap⟩ := (ih hrest).mp hlater
          exact ⟨List.forall_mem_cons.mpr ⟨ht, hall⟩, by rw [List.map_cons, hspelling, hmap]⟩
    · rintro ⟨hall, hmap⟩
      cases ts with
      | nil => cases hmap
      | cons t ts =>
        obtain ⟨hspelling, hmap⟩ := List.cons.inj hmap
        obtain ⟨ht, hall⟩ := List.forall_mem_cons.mp hall
        have hword : ofWord? w = some t := (ofWord?_eq_some_iff hw).mpr ⟨ht, hspelling⟩
        have hlater : ofWords (n + 1) ws = .ok ts := (ih hrest).mpr ⟨hall, hmap⟩
        simp only [ofWords, hword, hlater]
        rfl

/-- The reading of words ends at the first that writes no token, and says which it is. -/
theorem ofWords_eq_error_iff :
    ofWords n ws = .error e ↔
      ∃ before w after, ws = before ++ w :: after ∧ (∀ v ∈ before, ofWord? v ≠ none) ∧
        ofWord? w = none ∧ e = ⟨n + before.length, String.ofList w⟩ := by
  induction ws generalizing n e with
  | nil => simp [ofWords]
  | cons w ws ih =>
    constructor
    · intro h
      rw [ofWords] at h
      split at h
      · next hword =>
        cases h
        exact ⟨[], w, ws, rfl, List.forall_mem_nil _, hword, rfl⟩
      · next t hword =>
        cases hlater : ofWords (n + 1) ws with
        | ok later => rw [hlater] at h; cases h
        | error e =>
          rw [hlater] at h
          cases h
          obtain ⟨before, v, after, rfl, hbefore, hv, rfl⟩ := ih.mp hlater
          refine ⟨w :: before, v, after, rfl, List.forall_mem_cons.mpr ⟨?_, hbefore⟩, hv, ?_⟩
          · rw [hword]
            exact Option.some_ne_none t
          · rw [List.length_cons, Nat.add_assoc, Nat.add_comm 1]
    · rintro ⟨before, v, after, hsplit, hbefore, hv, rfl⟩
      cases before with
      | nil =>
        obtain ⟨rfl, rfl⟩ := List.cons.inj hsplit
        simp only [ofWords, hv]
        rfl
      | cons u before =>
        obtain ⟨rfl, hws⟩ := List.cons.inj hsplit
        obtain ⟨hu, hbefore⟩ := List.forall_mem_cons.mp hbefore
        obtain ⟨t, ht⟩ := Option.ne_none_iff_exists'.mp hu
        have hlater : ofWords (n + 1) ws = .error ⟨n + 1 + before.length, String.ofList v⟩ :=
          ih.mpr ⟨before, v, after, hws, hbefore, hv, rfl⟩
        simp only [ofWords, ht, hlater, List.length_cons, Except.map]
        rw [Nat.add_assoc, Nat.add_comm 1]

/-! ## The texts of a list of tokens -/

variable {text : String}

/-- **What is scanned**: a text is scanned as a list of tokens exactly if it is made of their
spellings, with blanks around them. -/
theorem scan_eq_ok_iff :
    scan text = .ok ts ↔ (∀ t ∈ ts, t.Writable) ∧ Spaced (ts.map spelling) text.toList := by
  have hsolid : ∀ w ∈ words text.toList, Solid w := fun w hw =>
    ((Text.spaced_words text.toList).word_ne_nil w hw).2
  rw [scan, ofWords_eq_ok_iff hsolid, ← Text.words_eq_iff, eq_comm (a := words text.toList)]

theorem ofWord?_eq_none_iff_of_mem (hw : w ∈ words text.toList) :
    ofWord? w = none ↔ w.head? = some ':' :=
  ofWord?_eq_none_iff ((Text.spaced_words text.toList).word_ne_nil w hw).1

/-- Scanning fails at the first word that starts with the colon. -/
theorem scan_eq_error_iff :
    scan text = .error e ↔
      ∃ before w after, words text.toList = before ++ w :: after ∧
        (∀ v ∈ before, v.head? ≠ some ':') ∧ w.head? = some ':' ∧
        e = ⟨before.length, String.ofList w⟩ := by
  rw [scan, ofWords_eq_error_iff]
  refine exists_congr fun before => exists_congr fun w => exists_congr fun after =>
    and_congr_right fun hsplit => ?_
  have hnone : ∀ v ∈ before ++ w :: after, (ofWord? v = none ↔ v.head? = some ':') :=
    fun v hv => ofWord?_eq_none_iff_of_mem (hsplit ▸ hv)
  have hbefore : (∀ v ∈ before, ofWord? v ≠ none) ↔ ∀ v ∈ before, v.head? ≠ some ':' :=
    forall₂_congr fun v hv => not_congr (hnone v (List.mem_append_left _ hv))
  rw [hbefore, hnone w (by simp), Nat.zero_add]

/-- A text is scanned exactly if none of its words starts with the colon. -/
theorem exists_scan_iff :
    (∃ ts, scan text = .ok ts) ↔ ∀ w ∈ words text.toList, w.head? ≠ some ':' := by
  constructor
  · rintro ⟨ts, h⟩ w hw hcolon
    obtain ⟨hwritable, hspaced⟩ := scan_eq_ok_iff.mp h
    have hnone : ofWord? w = none := (ofWord?_eq_none_iff_of_mem hw).mpr hcolon
    rw [hspaced.words_eq] at hw
    obtain ⟨t, ht, rfl⟩ := List.mem_map.mp hw
    rw [(hwritable t ht).ofWord?_spelling] at hnone
    cases hnone
  · intro h
    cases hscan : scan text with
    | ok ts => exact ⟨ts, rfl⟩
    | error e =>
      obtain ⟨before, w, after, hsplit, -, hw, -⟩ := scan_eq_error_iff.mp hscan
      exact absurd hw (h w (by rw [hsplit]; simp))

/-- Texts with a blank between them are scanned apart. -/
theorem scan_append {x y : String} {xs ys : List Token} {c : Char} (hc : Text.isBlank c = true)
    (hx : scan x = .ok xs) (hy : scan y = .ok ys) :
    scan (x ++ String.singleton c ++ y) = .ok (xs ++ ys) := by
  obtain ⟨hxs, hspacedx⟩ := scan_eq_ok_iff.mp hx
  obtain ⟨hys, hspacedy⟩ := scan_eq_ok_iff.mp hy
  refine scan_eq_ok_iff.mpr ⟨List.forall_mem_append.mpr ⟨hxs, hys⟩, ?_⟩
  simpa using hspacedx.append hc hspacedy

/-- Tokens are scanned from their spellings, each with the blanks after it. -/
theorem scan_entries {lead : List Char} {entries : List (Token × List Char)} (hlead : Blank lead)
    (hentries : ∀ p ∈ entries, p.1.Writable ∧ Blank p.2)
    (hgaps : ∀ p ∈ entries.dropLast, p.2 ≠ []) :
    scan (String.ofList (lead ++ entries.flatMap fun p => p.1.spelling ++ p.2)) =
      .ok (entries.map Prod.fst) := by
  refine scan_eq_ok_iff.mpr ⟨List.forall_mem_map.mpr fun p hp => (hentries p hp).1, ?_⟩
  rw [String.toList_ofList, List.map_map]
  refine .lead hlead (Text.spaced_flatMap spelling (fun p hp => ?_) hgaps)
  obtain ⟨hwritable, hblank⟩ := hentries p hp
  exact ⟨hwritable.spelling_ne_nil, hwritable.solid_spelling, hblank⟩

/-- **Scanning is the inverse of writing**: tokens that can be written are scanned from their
spellings with any blanks between them, before them and after them. Every text has one list of
words; it is scanned exactly if none of them starts with the colon, the words are then the spellings
of the tokens, and otherwise the error names the first word that does. So the tokens of two texts
with a space between them are those of the first and then those of the second. -/
theorem scan_inverse :
    (∀ (lead : List Char) (entries : List (Token × List Char)), Blank lead →
      (∀ p ∈ entries, p.1.Writable ∧ Blank p.2) → (∀ p ∈ entries.dropLast, p.2 ≠ []) →
      scan (String.ofList (lead ++ entries.flatMap fun p => p.1.spelling ++ p.2)) =
        .ok (entries.map Prod.fst)) ∧
    (∀ text, ∃ ws, (∀ ws', Spaced ws' text.toList ↔ ws' = ws) ∧
      ((∃ ts, scan text = .ok ts) ↔ ∀ w ∈ ws, w.head? ≠ some ':') ∧
      (∀ ts, scan text = .ok ts → ts.map spelling = ws ∧ ∀ t ∈ ts, t.Writable) ∧
      (∀ e, scan text = .error e ↔
        ∃ before w after, ws = before ++ w :: after ∧ (∀ v ∈ before, v.head? ≠ some ':') ∧
          w.head? = some ':' ∧ e = ⟨before.length, String.ofList w⟩) ∧
      (∀ e, scan text = .error e → e.message =
        "token " ++ Number.integerText e.index ++ " (" ++ Text.quoted e.word ++
          "): missing kind")) ∧
    (∀ x y xs ys, scan x = .ok xs → scan y = .ok ys → scan (x ++ " " ++ y) = .ok (xs ++ ys)) := by
  have hspace : String.singleton ' ' = " " := rfl
  refine ⟨fun _ _ => scan_entries, fun text => ?_, fun _ _ _ _ => hspace ▸ scan_append rfl⟩
  refine ⟨words text.toList, fun ws => ?_, exists_scan_iff, ?_, fun _ => scan_eq_error_iff,
    fun _ _ => rfl⟩
  · rw [← Text.words_eq_iff, eq_comm]
  · intro ts h
    obtain ⟨hwritable, hspaced⟩ := scan_eq_ok_iff.mp h
    exact ⟨hspaced.words_eq.symm, hwritable⟩

end Token
end TokenGrammar
