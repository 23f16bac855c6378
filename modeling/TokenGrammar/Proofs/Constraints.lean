import TokenGrammar.Proofs.Shorthand
import TokenGrammar.Proofs.TokenStreams

/-!
# Words as tokens and as constraints

A word with a colon in it can be read in two ways: as a token, or behind a sigil as an atom, which
asks for a kind and perhaps for a payload. Both readings divide the word at its first colon, and the
atom asks for just what the token carries. Payloads are compared loosely in general, but a scanned
token carries a text or nothing, and on these the comparison is equality. So an empty payload that
is asked for is not the same as none.

## Main results

* `Token.scannable_iff`: the tokens that can be scanned.
* `Token.Writable.agreesWith_text_iff`: what agrees with a text in such a token.
* `Token.scan_word`, `Atom.exists_shorthand_of_word`: the two readings of a word.
-/
namespace TokenGrammar

open Text (Solid Spaced uncut words)

namespace Token

variable {t : Token} {s w : String} {kind : List Char} {value : Option (List Char)}

/-- A token that is scanned from some text. -/
def Scannable (t : Token) : Prop := ∃ text ts, scan text = .ok ts ∧ t ∈ ts

/-- The tokens that can be scanned are those that can be written. -/
theorem scannable_iff : t.Scannable ↔ t.Writable := by
  constructor
  · rintro ⟨text, ts, hscan, ht⟩
    exact (scan_eq_ok_iff.mp hscan).1 t ht
  · intro h
    refine ⟨String.ofList t.spelling, [t], scan_eq_ok_iff.mpr ⟨List.forall_mem_singleton.mpr h, ?_⟩,
      List.mem_singleton_self t⟩
    rw [String.toList_ofList, List.map_singleton]
    exact h.solid_spelling.spaced h.spelling_ne_nil

/-- A payload that can be written agrees with a text only if it is this text. -/
theorem Writable.agreesWith_text_iff (h : t.Writable) :
    t.value.agreesWith (.text s) = true ↔ t.value = .text s := by
  rcases h.value with hnull | ⟨s', htext, -⟩
  · simp [hnull, Value.agreesWith, Value.sameAs, Value.isNull]
  · simp [htext, Value.agreesWith, Value.sameAs, Value.isNull, Value.isText, Value.render]

/-- A word that does not start with the colon is scanned as the token of its two parts. -/
theorem scan_word (hw : uncut ':' kind value = w.toList) (hfree : ':' ∉ kind) (hkind : kind ≠ [])
    (hsolid : Solid w.toList) (hne : w.toList ≠ []) :
    scan w =
      .ok [⟨String.ofList kind, value.elim .null fun v => .text (String.ofList v)⟩] := by
  obtain ⟨hwritable, hspelling⟩ := (ofWord?_eq_some_iff hsolid).mp
    (show ofWord? w.toList = some _ by rw [← hw, ofWord?_uncut hfree, if_neg hkind])
  refine scan_eq_ok_iff.mpr ⟨List.forall_mem_singleton.mpr hwritable, ?_⟩
  rw [List.map_singleton, hspelling]
  exact hsolid.spaced hne

end Token

namespace Atom

variable {t : Token} {w : String} {kind : List Char} {value : Option (List Char)}

/-- Behind the sigil, a word that neither starts with the colon nor ends in the mark is the shorthand
of its two parts. -/
theorem exists_shorthand_of_word (hw : uncut ':' kind value = w.toList) (hfree : ':' ∉ kind)
    (hkind : kind ≠ []) (hmark : w.toList.getLast? ≠ some '&') :
    ∃ p : Shorthand, p.text = "@" ++ w ∧ p.kind = .token ∧ p.name = kind ∧ p.value = value ∧
      p.skip = false := by
  refine ⟨⟨.token, kind, value, false, hkind, hfree, nofun, fun _ => hw ▸ hmark⟩, ?_, rfl, rfl, rfl,
    rfl⟩
  apply String.toList_inj.mp
  simp [Shorthand.text, Shorthand.body, sigil, mark, hw]

/-- The atom of a shorthand for tokens asks for its kind and, if there is one, for its payload. -/
theorem accepts_atom_iff {p : Shorthand} (hp : p.kind = .token) (ht : t.Writable) :
    p.atom.accepts t = true ↔
      t.kind = String.ofList p.name ∧ ∀ v ∈ p.value, t.value = .text (String.ofList v) := by
  obtain ⟨kind, name, value, skip⟩ := p
  subst hp
  cases value <;> simp [Shorthand.atom, accepts, isRule, ht.agreesWith_text_iff]

/-- **Words mean the same as constraints and as tokens**: a word without blanks that does not start
with the colon and does not end in the mark is read behind the sigil as an atom that is not skipped.
Of the tokens that can be scanned it accepts those of the kind before the first colon that have the
rest of the word as their payload, if there is a colon; among them is the token that the word itself
writes. If the rest is empty, every accepted token carries an empty text, and none carries its kind
alone. -/
theorem accepts_word (hne : w ≠ "") (hsolid : Solid w.toList) (hcolon : w.toList.head? ≠ some ':')
    (hmark : w.toList.getLast? ≠ some '&') :
    ∃ kind value a, ':' ∉ kind ∧ uncut ':' kind value = w.toList ∧
      read ("@" ++ w) = .ok a ∧ a.skip = false ∧
      (∀ t : Token, t.Scannable → (a.accepts t = true ↔
        t.kind = String.ofList kind ∧ ∀ v ∈ value, t.value = .text (String.ofList v))) ∧
      (∃ t, Token.scan w = .ok [t] ∧ a.accepts t = true) ∧
      (value = some [] → ∀ t : Token, t.Scannable → a.accepts t = true →
        t.value = .text "" ∧ t.hasValue = true) := by
  have hne' : w.toList ≠ [] := fun hnil => hne (String.toList_eq_nil_iff.mp hnil)
  obtain ⟨kind, value, hfree, hw⟩ := Text.exists_uncut ':' w.toList
  have hkind : kind ≠ [] := by
    rintro rfl
    cases value with
    | none => exact hne' hw.symm
    | some v => exact hcolon (hw ▸ rfl)
  obtain ⟨p, htext, htoken, rfl, rfl, hskip⟩ := exists_shorthand_of_word hw hfree hkind hmark
  have haccepts : ∀ t : Token, t.Scannable → (p.atom.accepts t = true ↔
      t.kind = String.ofList p.name ∧ ∀ v ∈ p.value, t.value = .text (String.ofList v)) :=
    fun t ht => accepts_atom_iff htoken (Token.scannable_iff.mp ht)
  refine ⟨p.name, p.value, p.atom, hfree, hw, htext ▸ read_text p, hskip, haccepts, ?_, ?_⟩
  · have hscan := Token.scan_word hw hfree hkind hsolid hne'
    refine ⟨_, hscan, (haccepts _ ⟨w, _, hscan, List.mem_singleton_self _⟩).mpr ⟨rfl, ?_⟩⟩
    intro v hv
    rw [hv, Option.elim]
  · intro hvalue t ht haccept
    have hempty : t.value = .text "" := ((haccepts t ht).mp haccept).2 [] hvalue
    exact ⟨hempty, by rw [Token.hasValue, hempty]; rfl⟩

/-- Colons and marks inside a word belong to the payload. -/
theorem accepts_word_marked :
    "NAME:a:&b" ≠ "" ∧ Solid "NAME:a:&b".toList ∧ "NAME:a:&b".toList.head? ≠ some ':' ∧
      "NAME:a:&b".toList.getLast? ≠ some '&' ∧
      ∃ a, read "@NAME:a:&b" = .ok a ∧ a.accepts ⟨"NAME", .text "a:&b"⟩ = true := by
  have hne : "NAME:a:&b" ≠ "" := by decide
  have hsolid : Solid "NAME:a:&b".toList := by simp [Solid, Text.isBlank]
  have hcolon : "NAME:a:&b".toList.head? ≠ some ':' := by decide
  have hmark : "NAME:a:&b".toList.getLast? ≠ some '&' := by decide
  obtain ⟨kind, value, a, -, -, hread, -, -, ⟨t, hscan, haccept⟩, -⟩ :=
    accepts_word hne hsolid hcolon hmark
  have ht : Token.scan "NAME:a:&b" = .ok [⟨"NAME", .text "a:&b"⟩] := rfl
  cases hscan.symm.trans ht
  exact ⟨hne, hsolid, hcolon, hmark, a, hread, haccept⟩

end Atom
end TokenGrammar
