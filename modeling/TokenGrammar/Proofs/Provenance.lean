import TokenGrammar.Proofs.Histories
import TokenGrammar.Proofs.Validity

/-!
# Where items come from

Every item of a built grammar was given to some call. There are two ways in. A part of the call may
have become the item, and then the call has looked at it. Or a loop that was made beforehand was a
part, and the item stands somewhere in its body: such a loop is taken as it is, so nothing has
looked at the item before the grammar is validated.

## Main definitions

* `Step.parts`: the parts that a call is made with.
* `Step.Buries`: a call is made with an item inside of a ready-made loop.
-/
namespace TokenGrammar

namespace Step

/-- The parts that a call is made with. -/
def parts : Step → List Part
  | .extend _ _ parts | .ignoring _ parts | .ignoreGlobally parts => parts
  | .rule _ | .preventRollback _ | .finish _ _ | .startFrom _ => []

/-- A call adds an item to a chain inside a loop that was made beforehand. -/
def Buries (step : Step) (i : Item) : Prop :=
  ∃ n extension parts kind body, step = .extend n extension parts ∧
    .item (.loop kind body) ∈ parts ∧ Item.Occurs i body

end Step

variable {step : Step} {i : Item}

/-! ## The items of one call -/

/-- A part that becomes anything but an atom is taken as it is. -/
theorem Part.eq_item_of_toItem {p : Part} (h : p.toItem = .ok i) (hne : ∀ a, i ≠ .atom a) :
    p = .item i := by
  cases p with
  | value v =>
    cases v with
    | text s =>
      obtain ⟨a, -, rfl⟩ := Part.toItem_shorthand h
      exact absurd rfl (hne a)
    | _ => cases h
  | item j =>
    cases j with
    | either e =>
      rw [Part.toItem] at h
      split at h
      · cases h
        rfl
      · cases h
    | foreign type text => cases h
    | _ =>
      cases h
      rfl

/-- A choice that is taken carries no fault. -/
theorem Part.fault_of_toItem {p : Part} {e : Either} (h : p.toItem = .ok (.either e)) :
    e.fault = none := by
  obtain rfl := Part.eq_item_of_toItem h (by simp)
  rw [Part.toItem] at h
  split at h
  · next hfault => exact hfault
  · cases h

/-- No part becomes a foreign item. -/
theorem Part.toItem_ne_foreign (p : Part) (type text : String) :
    p.toItem ≠ .ok (.foreign type text) := by
  intro h
  obtain rfl := Part.eq_item_of_toItem h (by simp)
  cases h

/-- What occurs in content is what a part became, or in a loop among the parts. -/
theorem Content.occurs_ofParts {ps : List Part} {content : Content}
    (h : Content.ofParts ps = .ok content) (hoccurs : Item.Occurs i content) :
    (∃ p ∈ ps, p.toItem = .ok i) ∨
      ∃ kind body, .item (.loop kind body) ∈ ps ∧ Item.Occurs i body := by
  cases hoccurs with
  | here hmem =>
    obtain ⟨p, hps, hp⟩ := exists_of_forall₂ (Content.forall₂_ofParts h) hmem
    exact .inl ⟨p, hps, hp⟩
  | inside hmem hbody =>
    obtain ⟨p, hps, hp⟩ := exists_of_forall₂ (Content.forall₂_ofParts h) hmem
    obtain rfl := Part.eq_item_of_toItem hp (by simp)
    exact .inr ⟨_, _, hps, hbody⟩

/-- The loop that a call makes of its parts is the only item that it adds to them. -/
theorem Extension.occurs_of_wrap {extension : Extension} {content : Content}
    (hne : ∀ kind body, i ≠ .loop kind body) (h : Item.Occurs i (extension.wrap content)) :
    Item.Occurs i content := by
  cases extension with
  | items => exact h
  | loop kind =>
    rcases Item.occurs_cons_iff.mp h with rfl | ⟨_, _, heq, hbody⟩ | hnil
    · exact absurd rfl (hne kind content)
    · cases heq
      exact hbody
    · exact absurd hnil Item.not_occurs_nil

theorem Step.occurs_added (hne : ∀ kind body, i ≠ .loop kind body)
    (h : Item.Occurs i step.added) : (∃ p ∈ step.parts, p.toItem = .ok i) ∨ step.Buries i := by
  cases step with
  | extend n extension parts =>
    rw [Step.added] at h
    split at h
    · next content hread =>
      have hcontent := Extension.occurs_of_wrap hne h
      rcases Content.occurs_ofParts hread hcontent with hpart | ⟨kind, body, hmem, hbody⟩
      · exact .inl hpart
      · exact .inr ⟨n, extension, parts, kind, body, rfl, hmem, hbody⟩
    · exact absurd h Item.not_occurs_nil
  | _ => exact absurd h Item.not_occurs_nil

/-! ## The items of a grammar -/

theorem Item.Occurs.exists_of_flatMap {steps : List Step} {f : Step → Content}
    (h : Item.Occurs i (steps.flatMap f)) : ∃ step ∈ steps, Item.Occurs i (f step) := by
  cases h with
  | here hmem =>
    obtain ⟨step, hstep, hmem⟩ := List.mem_flatMap.mp hmem
    exact ⟨step, hstep, .here hmem⟩
  | inside hmem hbody =>
    obtain ⟨step, hstep, hmem⟩ := List.mem_flatMap.mp hmem
    exact ⟨step, hstep, .inside hmem hbody⟩

theorem Calls.mem_of_mem_reaching {count : Nat} {steps : List Step}
    (h : step ∈ reaching count steps) : step ∈ steps := by
  induction steps generalizing count with
  | nil => exact h
  | cons s steps ih =>
    rw [reaching, List.mem_append] at h
    rcases h with h | h
    · split at h
      · exact List.mem_cons.mpr (.inl (List.mem_singleton.mp h))
      · cases h
    · exact List.mem_cons_of_mem _ (ih h)

/-- Every item of a built grammar that is no loop was a part of a call, as which it was looked at, or
is buried in one. -/
theorem Builder.occurs_of_build {steps : List Step} {g : Grammar}
    (h : (empty.run steps).build = .ok g) {v : Variation} (hv : v ∈ g.variations)
    (hne : ∀ kind body, i ≠ .loop kind body) (hoccurs : Item.Occurs i v.content) :
    ∃ step ∈ steps, (∃ p ∈ step.parts, p.toItem = .ok i) ∨ step.Buries i := by
  obtain ⟨hmirrors, rfl⟩ := mirrors_of_build h
  rw [grammar, hmirrors.variations] at hv
  obtain ⟨f, -, rfl⟩ := List.mem_map.mp hv
  obtain ⟨step, hstep, hadded⟩ := Item.Occurs.exists_of_flatMap hoccurs
  have hmade : step ∈ Calls.reaching 0 steps := (List.mem_filter.mp hstep).1
  exact ⟨step, Calls.mem_of_mem_reaching hmade, Step.occurs_added hne hadded⟩

end TokenGrammar
