import TokenGrammar.Proofs.Words
import TokenGrammar.Atom.Shorthand

/-!
# Shorthands and the atoms they write

A shorthand is put together from a sigil, a name, a payload and a mark. The parts overlap in what
they may contain: a payload may hold colons and marks, a name may hold marks, and an empty payload
is not a missing one. Reading settles each overlap in one way, the mark first and the colon second,
and `Shorthand` lists the parts with exactly the conditions under which they are found again. The
texts of such parts are the texts that are read, and rendering gives back each of them.

## Main definitions

* `Shorthand`: the parts of a shorthand that can be told apart in its text.
* `Atom.Fields`: an atom as a record whose payload is kept whether or not it is asked for.

## Main results

* `read_eq_ok_iff`: the texts that are read, and what each gives.
* `render_of_read`: rendering gives back the text that was read.
* `read_render_iff`: the atoms that are read back from their rendering.
-/
namespace TokenGrammar

open Text (uncut)

/-! ## The mark at the end -/

namespace Atom

variable {body unmarked : List Char} {skip : Bool}

/-- The mark of a skipped atom, if it is one. -/
def mark (skip : Bool) : List Char := if skip then ['&'] else []

/-- A mark at the end is always taken, and nothing else is. -/
theorem takeSkip_eq_iff :
    takeSkip body = (unmarked, skip) ↔
      body = unmarked ++ mark skip ∧ (skip = false → body.getLast? ≠ some '&') := by
  constructor
  · intro h
    rw [takeSkip] at h
    split at h
    · next hlast =>
      obtain ⟨rfl, rfl⟩ := Prod.mk.inj h
      obtain ⟨front, rfl⟩ := List.getLast?_eq_some_iff.mp hlast
      refine ⟨?_, fun hskip => by cases hskip⟩
      rw [List.dropLast_concat]
      rfl
    · next hlast =>
      obtain ⟨rfl, rfl⟩ := Prod.mk.inj h
      exact ⟨(List.append_nil _).symm, fun _ => hlast⟩
  · rintro ⟨rfl, hlast⟩
    cases skip with
    | false =>
      rw [takeSkip, if_neg (hlast rfl)]
      exact Prod.ext (List.append_nil _) rfl
    | true => rw [takeSkip, mark, if_pos rfl, if_pos List.getLast?_concat, List.dropLast_concat]

end Atom

/-! ## The parts of a shorthand -/

/-- The parts of a shorthand: the sigil, what stands before the first colon, what stands after it,
and the mark. Without the mark, the rest does not end in what would be read as one. -/
structure Shorthand where
  kind : AtomKind
  name : List Char
  value : Option (List Char)
  skip : Bool
  named : name ≠ []
  undivided : ':' ∉ name
  rule_bare : kind = .rule → value = none
  unmarked : skip = false → (uncut ':' name value).getLast? ≠ some '&'

namespace Shorthand

/-- What stands after the sigil. -/
def body (p : Shorthand) : List Char := uncut ':' p.name p.value ++ Atom.mark p.skip

/-- The text of a shorthand: sigil, name, colon and payload if there is one, and mark. -/
def text (p : Shorthand) : String := String.ofList (Atom.sigil p.kind :: p.body)

/-- The atom that a shorthand stands for. -/
def atom (p : Shorthand) : Atom :=
  ⟨p.kind, String.ofList p.name, p.value.map fun v => .text (String.ofList v), p.skip⟩

end Shorthand

namespace Atom

theorem toList_render (a : Atom) :
    a.render.toList =
      sigil a.kind ::
        (uncut ':' a.name.toList (a.value.map fun v => v.render.toList) ++ mark a.skip) := by
  obtain ⟨kind, name, value, skip⟩ := a
  cases value <;> cases skip <;> simp [render, uncut, mark]

theorem toList_render_text (kind : AtomKind) (name : String) (texts : Option (List Char))
    (skip : Bool) :
    (Atom.mk kind name (texts.map fun cs => .text (String.ofList cs)) skip).render.toList =
      sigil kind :: (uncut ':' name.toList texts ++ mark skip) := by
  rw [toList_render]
  cases texts <;> simp [Value.render]

@[simp] theorem render_atom (p : Shorthand) : p.atom.render = p.text := by
  apply String.toList_inj.mp
  rw [Shorthand.atom, toList_render_text, Shorthand.text, String.toList_ofList,
    String.toList_ofList, Shorthand.body]

/-! ## Reading -/

variable {text : String} {kind : AtomKind} {body name : List Char}
  {value : Option (List Char)} {skip : Bool} {a : Atom}

theorem readBody_of_parts (hskip : takeSkip body = (uncut ':' name value, skip))
    (hfree : ':' ∉ name) :
    readBody text kind body =
      if kind = .rule ∧ value ≠ none then .error (.ruleWithValue text)
      else if name = [] then .error (.noName text)
      else .ok ⟨kind, String.ofList name, value.map fun v => .text (String.ofList v), skip⟩ := by
  simp only [readBody, hskip, Text.cut_uncut hfree]
  cases kind <;> cases value <;> cases name <;> simp

/-- What stands after the sigil is read exactly if it consists of the parts of a shorthand. -/
theorem readBody_eq_ok_iff :
    readBody text kind body = .ok a ↔
      ∃ p : Shorthand, p.kind = kind ∧ p.body = body ∧ p.atom = a := by
  constructor
  · intro h
    obtain ⟨⟨unmarked, skip⟩, htake⟩ : ∃ taken, takeSkip body = taken := ⟨_, rfl⟩
    obtain ⟨name, value, hfree, rfl⟩ := Text.exists_uncut ':' unmarked
    obtain ⟨rfl, hlast⟩ := takeSkip_eq_iff.mp htake
    rw [readBody_of_parts htake hfree] at h
    split at h
    · cases h
    · next hrule =>
      split at h
      · cases h
      · next hname =>
        cases h
        have hbare : kind = .rule → value = none := fun hkind =>
          Classical.not_not.mp fun hvalue => hrule ⟨hkind, hvalue⟩
        have hmark : skip = false → (uncut ':' name value).getLast? ≠ some '&' := by
          rintro rfl
          rw [← List.append_nil (uncut ':' name value)]
          exact hlast rfl
        exact ⟨⟨kind, name, value, skip, hname, hfree, hbare, hmark⟩, rfl, rfl, rfl⟩
  · rintro ⟨p, rfl, rfl, rfl⟩
    have htake : takeSkip p.body = (uncut ':' p.name p.value, p.skip) := by
      refine takeSkip_eq_iff.mpr ⟨rfl, fun hskip => ?_⟩
      rw [Shorthand.body, hskip, mark, if_neg Bool.false_ne_true, List.append_nil]
      exact p.unmarked hskip
    rw [readBody_of_parts htake p.undivided,
      if_neg fun hrule => hrule.2 (p.rule_bare hrule.1), if_neg p.named]
    rfl

/-- **What is read**: a text is read exactly if it is the text of a shorthand, as the atom that this
shorthand stands for. -/
theorem read_eq_ok_iff : read text = .ok a ↔ ∃ p : Shorthand, p.text = text ∧ p.atom = a := by
  have htext : ∀ p : Shorthand, p.text = text ↔ text.toList = sigil p.kind :: p.body := by
    intro p
    rw [← String.toList_inj, Shorthand.text, String.toList_ofList, eq_comm]
  simp only [htext, read]
  constructor
  · intro h
    split at h
    · next body hbody =>
      obtain ⟨p, hkind, rfl, hatom⟩ := readBody_eq_ok_iff.mp h
      exact ⟨p, hkind ▸ hbody, hatom⟩
    · next body hbody =>
      obtain ⟨p, hkind, rfl, hatom⟩ := readBody_eq_ok_iff.mp h
      exact ⟨p, hkind ▸ hbody, hatom⟩
    · cases h
  · rintro ⟨p, hbody, hatom⟩
    rw [hbody]
    cases hkind : p.kind <;> exact readBody_eq_ok_iff.mpr ⟨p, hkind, rfl, hatom⟩

/-- A name may hold the mark and a payload the colon. -/
example : read "@a&:b:c&" = .ok ⟨.token, "a&", some (.text "b:c"), true⟩ := rfl

theorem read_text (p : Shorthand) : read p.text = .ok p.atom := read_eq_ok_iff.mpr ⟨p, rfl, rfl⟩

/-- Rendering gives back the text that was read. -/
theorem render_of_read (h : read text = .ok a) : a.render = text := by
  obtain ⟨p, rfl, rfl⟩ := read_eq_ok_iff.mp h
  exact render_atom p

/-- Different texts are read as different atoms. -/
theorem read_injective {text' : String} (h : read text = .ok a) (h' : read text' = .ok a) :
    text = text' := by
  rw [← render_of_read h, render_of_read h']

/-! ## Reading what was rendered -/

/-- A sigil is no mark, so a text ends in the mark exactly if what follows the sigil does. -/
theorem getLast?_sigil_cons {cs : List Char} :
    (sigil kind :: cs).getLast? = some '&' ↔ cs.getLast? = some '&' := by
  rw [List.getLast?_cons, Option.some.injEq]
  cases cs.getLast? with
  | none => cases kind <;> simp [sigil]
  | some c => simp

/-- **What is read back**: an atom is read back from its rendering exactly if it is the atom of a
shorthand. -/
theorem read_render_iff (a : Atom) :
    read a.render = .ok a ↔
      a.name ≠ "" ∧ ':' ∉ a.name.toList ∧
      (∀ v, a.value = some v → a.kind = .token ∧ ∃ s, v = .text s) ∧
      (a.skip = false → a.render.toList.getLast? ≠ some '&') := by
  constructor
  · intro h
    obtain ⟨p, -, rfl⟩ := read_eq_ok_iff.mp h
    refine ⟨fun hname => p.named (String.ofList_eq_empty_iff.mp hname), ?_, ?_, ?_⟩
    · rw [Shorthand.atom, String.toList_ofList]
      exact p.undivided
    · intro v hv
      obtain ⟨cs, hcs, rfl⟩ := Option.map_eq_some_iff.mp hv
      refine ⟨?_, String.ofList cs, rfl⟩
      cases hkind : p.kind with
      | token => exact hkind
      | rule => rw [p.rule_bare hkind] at hcs; cases hcs
    · intro hskip hlast
      rw [render_atom, Shorthand.text, String.toList_ofList, getLast?_sigil_cons, Shorthand.body,
        show p.skip = false from hskip, mark, if_neg Bool.false_ne_true, List.append_nil] at hlast
      exact p.unmarked hskip hlast
  · rintro ⟨hname, hfree, hvalue, hlast⟩
    obtain ⟨kind, name, value, skip⟩ := a
    obtain ⟨texts, rfl⟩ : ∃ texts : Option (List Char),
        value = texts.map fun cs => .text (String.ofList cs) := by
      cases value with
      | none => exact ⟨none, rfl⟩
      | some v =>
        obtain ⟨-, s, rfl⟩ := hvalue v rfl
        exact ⟨some s.toList, by simp⟩
    have hbare : kind = .rule → texts = none := by
      rintro rfl
      cases texts with
      | none => rfl
      | some cs => cases (hvalue _ rfl).1
    have hmark : skip = false → (uncut ':' name.toList texts).getLast? ≠ some '&' := by
      rintro rfl hmark
      refine hlast rfl ?_
      rw [toList_render_text, getLast?_sigil_cons, mark, if_neg Bool.false_ne_true,
        List.append_nil]
      exact hmark
    have hnamed : name.toList ≠ [] := fun h => hname (String.toList_eq_nil_iff.mp h)
    let p : Shorthand := ⟨kind, name.toList, texts, skip, hnamed, hfree, hbare, hmark⟩
    have hatom : p.atom = ⟨kind, name, texts.map fun cs => .text (String.ofList cs), skip⟩ := by
      rw [Shorthand.atom, String.ofList_toList]
    rw [← hatom, render_atom]
    exact read_text p

/-- An atom as a record of five fields, in which a payload may stand that is not asked for. -/
structure Fields where
  kind : AtomKind
  name : String
  value : Value
  asks : Bool
  skip : Bool

/-- The atom of a record: the payload counts only if it is asked for. -/
def Fields.atom (f : Fields) : Atom :=
  ⟨f.kind, f.name, if f.asks then some f.value else none, f.skip⟩

/-- The record of an atom: a payload that is not asked for is null. -/
def fields (a : Atom) : Fields := ⟨a.kind, a.name, a.value.getD .null, a.value.isSome, a.skip⟩

@[simp] theorem atom_fields (a : Atom) : a.fields.atom = a := by
  obtain ⟨kind, name, value, skip⟩ := a
  cases value <;> rfl

theorem fields_atom_iff {f : Fields} :
    f.atom.fields = f ↔ (f.asks = false → f.value = .null) := by
  obtain ⟨kind, name, value, asks, skip⟩ := f
  cases asks <;> simp [Fields.atom, fields, eq_comm]

/-- A record is read back from its rendering exactly if its atom is and no payload stands in it that
is not asked for. -/
theorem read_fields_iff (f : Fields) :
    (read f.atom.render).map fields = .ok f ↔
      f.name ≠ "" ∧ ':' ∉ f.name.toList ∧
      (f.asks = true → f.kind = .token ∧ ∃ s, f.value = .text s) ∧
      (f.asks = false → f.value = .null) ∧
      (f.skip = false → f.atom.render.toList.getLast? ≠ some '&') := by
  have hback : (read f.atom.render).map fields = .ok f ↔
      read f.atom.render = .ok f.atom ∧ f.atom.fields = f := by
    cases hread : read f.atom.render with
    | error e => simp [Except.map]
    | ok a =>
      simp only [Except.map, Except.ok.injEq]
      constructor
      · rintro rfl
        exact ⟨(atom_fields a).symm, by rw [atom_fields]⟩
      · rintro ⟨rfl, hfields⟩
        exact hfields
  have hasked : (∀ v, f.atom.value = some v → f.kind = .token ∧ ∃ s, v = .text s) ↔
      (f.asks = true → f.kind = .token ∧ ∃ s, f.value = .text s) := by
    obtain ⟨kind, name, value, asks, skip⟩ := f
    cases asks <;> simp [Fields.atom]
  rw [hback, read_render_iff, fields_atom_iff, ← hasked]
  constructor
  · rintro ⟨⟨hname, hfree, hvalue, hlast⟩, hnull⟩
    exact ⟨hname, hfree, hvalue, hnull, hlast⟩
  · rintro ⟨hname, hfree, hvalue, hnull, hlast⟩
    exact ⟨⟨hname, hfree, hvalue, hlast⟩, hnull⟩

/-- **Shorthands and atoms are inverse to each other.** Exactly the texts of shorthands are read,
each as the atom of its parts. Rendering gives back the text that was read. In the other direction a
record is read back from its rendering exactly if it has a name without a colon, has a payload only
where a token with a text is asked for, and its rendering does not end in a mark that is not its
own. So different texts are read as different atoms. -/
theorem shorthand_inverse :
    (∀ text, (∃ a, read text = .ok a) ↔ ∃ p : Shorthand, p.text = text) ∧
    (∀ p : Shorthand, read p.text = .ok p.atom) ∧
    (∀ text a, read text = .ok a → a.render = text) ∧
    (∀ f : Fields, (read f.atom.render).map fields = .ok f ↔
      f.name ≠ "" ∧ ':' ∉ f.name.toList ∧
      (f.asks = true → f.kind = .token ∧ ∃ s, f.value = .text s) ∧
      (f.asks = false → f.value = .null) ∧
      (f.skip = false → f.atom.render.toList.getLast? ≠ some '&')) ∧
    (∀ text text' a, read text = .ok a → read text' = .ok a → text = text') := by
  refine ⟨fun text => ⟨?_, ?_⟩, read_text, fun _ _ => render_of_read, read_fields_iff,
    fun _ _ _ => read_injective⟩
  · rintro ⟨a, h⟩
    obtain ⟨p, htext, -⟩ := read_eq_ok_iff.mp h
    exact ⟨p, htext⟩
  · rintro ⟨p, rfl⟩
    exact ⟨p.atom, read_text p⟩

end Atom
end TokenGrammar
