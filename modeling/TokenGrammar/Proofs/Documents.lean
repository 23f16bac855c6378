import Mathlib.Data.List.Sort
import TokenGrammar.Proofs.Compilation
import TokenGrammar.Proofs.Validity

/-!
# Documents and their grammars

A grammar is faithful to its document. A spec is faulty if it does not set exactly one strategy, or
lists something that is neither a text nor a list of texts; a document with a faulty spec is not
compiled, and the error names the first faulty spec in the order of the rules' names. In the grammar
of any other document, the variations of a rule are the specs of the rule, one for one and in the
same order, and what is in a variation is what its spec spells out.

The rules of a document are a map, of which the list is one enumeration. Compilation looks at the
names in ascending order and at the specs of each name, so all enumerations lead to the same result,
also where this result is an error.

## Main definitions

* `VariationSpec.Faulty`, `Document.FaultyAt`: the specs that end a compilation.
* `Value.Spells`: the item that a value of a spec stands for.
* `VariationSpec.CompilesTo`: the variations that a spec may become.
-/
namespace TokenGrammar

/-- A result that is an error after a change was an error before it. -/
theorem eq_error_of_map_eq_error {ε α β : Type} {x : Except ε α} {f : α → β} {e : ε}
    (h : x.map f = .error e) : x = .error e := by
  cases x with
  | error e' => exact congrArg _ (Except.error.inj h)
  | ok a => cases h

/-- Evaluating one value after the other fails exactly if one of the evaluations does. -/
theorem mapM_eq_error_iff {ε α β : Type} {f : α → Except ε β} {xs : List α} :
    (∃ e, xs.mapM f = .error e) ↔ ∃ x ∈ xs, ∃ e, f x = .error e := by
  induction xs with
  | nil => exact ⟨nofun, nofun⟩
  | cons x xs ih =>
    rw [List.exists_mem_cons_iff, ← ih, List.mapM_cons]
    cases f x with
    | error e => exact ⟨fun _ => .inl ⟨e, rfl⟩, fun _ => ⟨e, rfl⟩⟩
    | ok y =>
      cases xs.mapM f with
      | error e => exact ⟨fun _ => .inr ⟨e, rfl⟩, fun _ => ⟨e, rfl⟩⟩
      | ok ys => exact ⟨nofun, nofun⟩

/-- A function that goes through a list and ends at the first error. -/
theorem eq_mapM {ε α β : Type} (f : α → Except ε β) (go : List α → Except ε (List β))
    (hnil : go [] = .ok [])
    (hcons : ∀ x xs, go (x :: xs) =
      match f x with
      | .error e => .error e
      | .ok y => (go xs).map (y :: ·)) (xs : List α) : go xs = xs.mapM f := by
  induction xs with
  | nil => exact hnil
  | cons x xs ih =>
    rw [hcons, List.mapM_cons, ih]
    cases f x with
    | error e => rfl
    | ok y => cases xs.mapM f <;> rfl

/-! ## Faulty specs -/

/-- What a spec may list: texts, and lists of texts. -/
def Value.IsItem : Value → Prop
  | .text _ => True
  | .list candidates => ∀ x ∈ candidates, ∃ text, x = .text text
  | _ => False

theorem candidateParts_eq_mapM (xs : List Value) : candidateParts xs = xs.mapM candidatePart := by
  refine eq_mapM candidatePart candidateParts rfl (fun x _ => ?_) xs
  rw [candidateParts]
  cases candidatePart x <;> rfl

theorem itemParts_eq_mapM (xs : List Value) : itemParts xs = xs.mapM itemPart := by
  refine eq_mapM itemPart itemParts rfl (fun x _ => ?_) xs
  rw [itemParts]
  cases itemPart x <;> rfl

theorem candidatePart_eq_error_iff {x : Value} :
    (∃ e, candidatePart x = .error e) ↔ ¬ ∃ text, x = .text text := by
  cases x with
  | text s => simp [candidatePart]
  | _ => simp [candidatePart]

theorem itemPart_eq_error_iff {x : Value} : (∃ e, itemPart x = .error e) ↔ ¬ x.IsItem := by
  cases x with
  | text s => simp [itemPart, Value.IsItem]
  | list candidates =>
    have hcandidates : (∃ e, itemPart (.list candidates) = .error e) ↔
        ∃ e, candidateParts candidates = .error e := by
      rw [itemPart]
      cases candidateParts candidates <;> simp [Except.map]
    rw [hcandidates, candidateParts_eq_mapM, mapM_eq_error_iff]
    simp only [candidatePart_eq_error_iff, Value.IsItem, not_forall, exists_prop]
  | _ => simp [itemPart, Value.IsItem]

theorem itemParts?_eq_error_iff {items : Option (List Value)} :
    (∃ e, itemParts? items = .error e) ↔ ∃ x ∈ items.getD [], ¬ x.IsItem := by
  cases items with
  | none => simp [itemParts?]
  | some xs =>
    have hparts : (∃ e, itemParts? (some xs) = .error e) ↔ ∃ e, itemParts xs = .error e := by
      rw [itemParts?]
      cases itemParts xs <;> simp [Except.map]
    rw [hparts, itemParts_eq_mapM, mapM_eq_error_iff]
    simp only [itemPart_eq_error_iff, Option.getD_some]

namespace VariationSpec

/-- All that a spec lists, in its items and in both of its loops. -/
def listed (s : VariationSpec) : List Value :=
  s.items.getD [] ++ s.binaryLoop.getD [] ++ s.blockLoop.getD []

/-- How many of the four strategies a spec sets. -/
def strategyCount (s : VariationSpec) : Nat :=
  [s.pass, s.select.isSome, s.node != "", s.fold != ""].count true

/-- A spec that cannot become a variation. -/
def Faulty (s : VariationSpec) : Prop := s.strategyCount ≠ 1 ∨ ∃ x ∈ s.listed, ¬ x.IsItem

theorem length_strategies (s : VariationSpec) : s.strategies.length = s.strategyCount := by
  simp only [strategies, strategyCount, List.length_append, List.count_cons, List.count_nil]
  cases s.pass <;> cases s.select <;> by_cases hn : s.node = "" <;> by_cases hf : s.fold = "" <;>
    simp [hn, hf]

theorem strategy_eq_error_iff {s : VariationSpec} :
    (∃ e, s.strategy = .error e) ↔ s.strategyCount ≠ 1 := by
  rw [← length_strategies, strategy]
  cases hs : s.strategies with
  | nil => simp
  | cons x rest =>
    cases rest with
    | nil => simp
    | cons y rest => simp

/-- A spec gives no steps exactly if it is faulty, whatever its rule and its chain. -/
theorem steps_eq_error_iff {s : VariationSpec} {rule : String} {chain : Nat} :
    (∃ e, s.steps rule chain = .error e) ↔ s.Faulty := by
  have hlisted : (∃ x ∈ s.listed, ¬ x.IsItem) ↔ (∃ e, itemParts? s.items = .error e) ∨
      (∃ e, itemParts? s.binaryLoop = .error e) ∨ ∃ e, itemParts? s.blockLoop = .error e := by
    simp only [itemParts?_eq_error_iff, listed, List.mem_append, or_and_right, exists_or, or_assoc]
  rw [Faulty, hlisted, ← strategy_eq_error_iff, steps]
  cases s.strategy with
  | error e => simp
  | ok strategy =>
    cases itemParts? s.items with
    | error e => simp
    | ok items =>
      cases itemParts? s.binaryLoop with
      | error e => simp
      | ok binary =>
        cases itemParts? s.blockLoop with
        | error e => simp
        | ok block => simp

theorem not_faulty_of_steps {s : VariationSpec} {rule : String} {chain : Nat} {steps : List Step}
    (h : s.steps rule chain = .ok steps) : ¬ s.Faulty := by
  intro hfaulty
  obtain ⟨e, he⟩ := steps_eq_error_iff.mpr hfaulty
  cases h.symm.trans he

end VariationSpec

/-! ## The first faulty spec -/

namespace Document

variable {d : Document}

/-- A spec of a document that is faulty, by its rule and its number among the specs of the rule. -/
def FaultyAt (d : Document) (rule : String) (index : Nat) : Prop :=
  ∃ s, (d.specsOf rule)[index]? = some s ∧ s.Faulty

theorem not_faulty_of_specSteps {rule : String} {index chain : Nat} {specs : List VariationSpec}
    {steps : List Step} (h : specSteps rule index chain specs = .ok steps) :
    ∀ s ∈ specs, ¬ s.Faulty := by
  induction specs generalizing index chain steps with
  | nil => simp
  | cons spec rest ih =>
    rw [specSteps] at h
    cases hspec : spec.steps rule chain with
    | error e => rw [hspec] at h; cases h
    | ok first =>
      rw [hspec] at h
      obtain ⟨later, hrest, -⟩ := exists_of_map_eq_ok h
      exact List.forall_mem_cons.mpr ⟨VariationSpec.not_faulty_of_steps hspec, ih hrest⟩

/-- The specs of a rule fail at the first of them that is faulty. -/
theorem specSteps_eq_error {rule : String} {index chain : Nat} {specs : List VariationSpec}
    {e : CompileError} (h : specSteps rule index chain specs = .error e) :
    e.rule = rule ∧ ∃ k s, specs[k]? = some s ∧ s.Faulty ∧ e.variation = index + k ∧
      ∀ j t, specs[j]? = some t → t.Faulty → k ≤ j := by
  induction specs generalizing index chain with
  | nil => cases h
  | cons spec rest ih =>
    rw [specSteps] at h
    cases hspec : spec.steps rule chain with
    | error fault =>
      rw [hspec] at h
      cases h
      have hfaulty := VariationSpec.steps_eq_error_iff.mp ⟨fault, hspec⟩
      exact ⟨rfl, 0, spec, rfl, hfaulty, rfl, fun j _ _ _ => Nat.zero_le j⟩
    | ok first =>
      rw [hspec] at h
      obtain ⟨hrule, k, s, hs, hfaulty, hvariation, hleast⟩ := ih (eq_error_of_map_eq_error h)
      refine ⟨hrule, k + 1, s, hs, hfaulty, by omega, fun j t ht htfaulty => ?_⟩
      cases j with
      | zero =>
        obtain rfl := Option.some.inj ht
        exact absurd htfaulty (VariationSpec.not_faulty_of_steps hspec)
      | succ j => exact Nat.succ_le_succ (hleast j t ht htfaulty)

theorem not_faultyAt_of_ruleSteps {chain : Nat} {names : List String} {steps : List Step}
    (h : d.ruleSteps chain names = .ok steps) : ∀ rule ∈ names, ∀ i, ¬ d.FaultyAt rule i := by
  induction names generalizing chain steps with
  | nil => exact nofun
  | cons rule rest ih =>
    rw [ruleSteps] at h
    cases hspecs : specSteps rule 0 chain (d.specsOf rule) with
    | error e => rw [hspecs] at h; cases h
    | ok first =>
      rw [hspecs] at h
      obtain ⟨later, hrest, -⟩ := exists_of_map_eq_ok h
      refine List.forall_mem_cons.mpr ⟨?_, ih hrest⟩
      rintro i ⟨s, hs, hfaulty⟩
      exact not_faulty_of_specSteps hspecs s (List.mem_of_getElem? hs) hfaulty

/-- Rules in ascending order fail at the least faulty spec of them all. -/
theorem ruleSteps_eq_error {chain : Nat} {names : List String} (hsorted : names.Pairwise (· < ·))
    {e : CompileError} (h : d.ruleSteps chain names = .error e) :
    e.rule ∈ names ∧ d.FaultyAt e.rule e.variation ∧
      ∀ rule ∈ names, ∀ i, d.FaultyAt rule i → e.rule < rule ∨ e.rule = rule ∧ e.variation ≤ i := by
  induction names generalizing chain with
  | nil => cases h
  | cons rule rest ih =>
    obtain ⟨hbelow, hrest⟩ := List.pairwise_cons.mp hsorted
    rw [ruleSteps] at h
    cases hspecs : specSteps rule 0 chain (d.specsOf rule) with
    | error e' =>
      rw [hspecs] at h
      cases h
      -- this rule fails: its first faulty spec comes before those of all later names
      obtain ⟨hrule, k, s, hs, hfaulty, hvariation, hleast⟩ := specSteps_eq_error hspecs
      rw [Nat.zero_add] at hvariation
      rw [hrule, hvariation]
      refine ⟨List.mem_cons_self, ⟨s, hs, hfaulty⟩, List.forall_mem_cons.mpr ⟨?_, ?_⟩⟩
      · rintro i ⟨t, ht, htfaulty⟩
        exact .inr ⟨rfl, hleast i t ht htfaulty⟩
      · exact fun name hname _ _ => .inl (hbelow name hname)
    | ok first =>
      rw [hspecs] at h
      obtain ⟨hmem, hfaulty, hleast⟩ := ih hrest (eq_error_of_map_eq_error h)
      refine ⟨List.mem_cons_of_mem _ hmem, hfaulty, List.forall_mem_cons.mpr ⟨?_, hleast⟩⟩
      rintro i ⟨s, hs, hsfaulty⟩
      exact absurd hsfaulty (not_faulty_of_specSteps hspecs s (List.mem_of_getElem? hs))

/-- A rule with specs is declared. -/
theorem mem_ruleNames_of_specsOf {rule : String} (h : d.specsOf rule ≠ []) :
    rule ∈ d.ruleNames := by
  rw [ruleNames, mem_sortedNames]
  by_contra hnot
  have hlookup : d.rules.lookup rule = none := by
    rw [List.lookup_eq_none_iff]
    intro p hp
    exact bne_iff_ne.mpr fun heq => hnot (List.mem_map.mpr ⟨p, hp, heq.symm⟩)
  exact h (by rw [specsOf, hlookup, Option.getD_none])

theorem FaultyAt.mem_ruleNames {rule : String} {i : Nat} (h : d.FaultyAt rule i) :
    rule ∈ d.ruleNames := by
  obtain ⟨s, hs, -⟩ := h
  exact mem_ruleNames_of_specsOf (List.ne_nil_of_mem (List.mem_of_getElem? hs))

theorem grammar_eq_compile_iff {e : CompileError} :
    d.grammar = .error (.compile e) ↔ d.ruleSteps 0 d.ruleNames = .error e := by
  rw [grammar, steps]
  cases d.ruleSteps 0 d.ruleNames with
  | error e' => simp [Except.map]
  | ok rules =>
    simp only [Except.map]
    split <;> simp

theorem exists_compile_iff :
    (∃ e, d.grammar = .error (.compile e)) ↔ ∃ rule i, d.FaultyAt rule i := by
  simp only [grammar_eq_compile_iff]
  constructor
  · rintro ⟨e, he⟩
    exact ⟨e.rule, e.variation, (ruleSteps_eq_error (sortedNames_pairwise _) he).2.1⟩
  · rintro ⟨rule, i, hfaulty⟩
    cases hsteps : d.ruleSteps 0 d.ruleNames with
    | error e => exact ⟨e, rfl⟩
    | ok steps =>
      exact absurd hfaulty (not_faultyAt_of_ruleSteps hsteps rule hfaulty.mem_ruleNames i)

end Document

/-! ## What specs spell out -/

namespace Value

/-- The item that a value of a spec spells out: a text is the shorthand of an atom, and a list of
texts is a choice between the atoms, in the same order. -/
inductive Spells : Value → Item → Prop
  | atom {text : String} {a : Atom} (read : Atom.read text = .ok a) : Spells (.text text) (.atom a)
  | choice {texts : List String} {atoms : List Atom}
      (read : List.Forall₂ (fun text a => Atom.read text = .ok a) texts atoms) :
      Spells (.list (texts.map .text)) (.either ⟨atoms, none⟩)

/-- The loop over the items that a list spells out. -/
def SpellsLoop (kind : LoopKind) (xs : List Value) (i : Item) : Prop :=
  ∃ body, List.Forall₂ Spells xs body ∧ i = .loop kind body

end Value

/-- Candidates that are parts are texts. -/
theorem exists_texts_of_candidateParts {candidates : List Value} {parts : List Part}
    (h : candidateParts candidates = .ok parts) :
    ∃ texts : List String, candidates = texts.map .text ∧ parts = texts.map .shorthand := by
  induction candidates generalizing parts with
  | nil =>
    cases h
    exact ⟨[], rfl, rfl⟩
  | cons x rest ih =>
    rw [candidateParts] at h
    cases x with
    | text s =>
      obtain ⟨ps, hps, rfl⟩ := exists_of_map_eq_ok h
      obtain ⟨texts, rfl, rfl⟩ := ih hps
      exact ⟨s :: texts, rfl, rfl⟩
    | _ => cases h

theorem Writes.spells {x : Value} {i : Item} (h : Writes x i) : x.Spells i := by
  obtain ⟨p, hp, hi⟩ := h
  cases x with
  | text s =>
    cases hp
    obtain ⟨a, hread, rfl⟩ := Part.toItem_shorthand hi
    exact .atom hread
  | list candidates =>
    obtain ⟨parts, hparts, rfl⟩ := exists_of_map_eq_ok hp
    obtain ⟨texts, rfl, rfl⟩ := exists_texts_of_candidateParts hparts
    rw [Part.toItem] at hi
    split at hi
    · next hfault =>
      cases hi
      have hread := Either.forall₂_oneOf hfault
      rw [List.forall₂_map_left_iff] at hread
      generalize Either.oneOf (texts.map .shorthand) = e at hfault hread
      obtain ⟨atoms, fault⟩ := e
      cases hfault
      exact .choice (hread.imp fun _ _ => Part.candidate_shorthand)
    · cases hi
  | _ => cases hp

/-- The atoms of an ignore set that is written in shorthand. -/
theorem IgnoreSet.forall₂_ofParts {texts : List String} {set : IgnoreSet}
    (h : IgnoreSet.ofParts (texts.map .shorthand) = .ok set) :
    List.Forall₂ (fun text a => Atom.read text = .ok a ∧ a.isRule = false) texts set := by
  rw [IgnoreSet.ofParts] at h
  split at h
  · cases h
  · next content hread =>
    have hitems := Content.forall₂_ofParts hread
    rw [List.forall₂_map_left_iff] at hitems
    clear hread
    induction hitems generalizing set with
    | nil =>
      cases h
      exact .nil
    | cons hi _ ih =>
      obtain ⟨a, ha, rfl⟩ := Part.toItem_shorthand hi
      rw [IgnoreSet.ofItems] at h
      split at h
      · cases h
      · next hrule =>
        obtain ⟨atoms, hatoms, rfl⟩ := exists_of_map_eq_ok h
        exact .cons ⟨ha, Bool.eq_false_iff.mpr hrule⟩ (ih hatoms)

namespace VariationSpec

/-- The variation of a spec: the items, then a loop for each list of a loop that is present. There
is an ignore set of its own exactly if the spec gives one, be it empty. -/
structure CompilesTo (s : VariationSpec) (v : Variation) : Prop where
  strategy : s.strategies = [v.strategy]
  content : ∃ front binary block, List.Forall₂ Value.Spells (s.items.getD []) front ∧
    Option.Rel (Value.SpellsLoop .binary) s.binaryLoop binary ∧
    Option.Rel (Value.SpellsLoop .block) s.blockLoop block ∧
    v.content = front ++ binary.toList ++ block.toList
  oneLoop : s.binaryLoop = none ∨ s.blockLoop = none
  ignore : Option.Rel (List.Forall₂ fun text a => Atom.read text = .ok a ∧ a.isRule = false)
    s.ignore v.ignore
  preventRollback : v.preventRollback = s.preventRollback

variable {s : VariationSpec} {rule : String} {v : Variation}

theorem Reads.forall₂_spells {extension : Extension} {items : List Value} {content : Content}
    (h : Reads extension (some items) content) :
    ∃ body, List.Forall₂ Value.Spells items body ∧ content = extension.wrap body := by
  obtain ⟨parts, hparts, hadds⟩ := h
  obtain ⟨listed, hlisted, rfl⟩ := exists_of_map_eq_ok hparts
  cases hadds with
  | listed read => exact ⟨_, (forall₂_writes hlisted read).imp fun _ _ => Writes.spells, rfl⟩

theorem Reads.eq_nil {extension : Extension} {content : Content}
    (h : Reads extension none content) : content = [] := by
  obtain ⟨parts, hparts, hadds⟩ := h
  cases hparts
  cases hadds
  rfl

theorem Reads.spells_items {items : Option (List Value)} {content : Content}
    (h : Reads .items items content) : List.Forall₂ Value.Spells (items.getD []) content := by
  cases items with
  | none => exact h.eq_nil ▸ .nil
  | some items =>
    obtain ⟨body, hbody, rfl⟩ := h.forall₂_spells
    exact hbody

theorem Reads.spells_loop {kind : LoopKind} {items : Option (List Value)} {content : Content}
    (h : Reads (.loop kind) items content) :
    ∃ i, Option.Rel (Value.SpellsLoop kind) items i ∧ content = i.toList := by
  cases items with
  | none => exact ⟨none, .none, h.eq_nil⟩
  | some items =>
    obtain ⟨body, hbody, rfl⟩ := h.forall₂_spells
    exact ⟨some (.loop kind body), .some ⟨body, hbody, rfl⟩, rfl⟩

/-- Two loops in one spec would follow each other, but a loop comes last. -/
theorem Declares.oneLoop (h : s.Declares rule v) (hshape : v.content.WellShaped) :
    s.binaryLoop = none ∨ s.blockLoop = none := by
  obtain ⟨front, passes, tail, -, hpasses, htail, hcontent⟩ := h.content
  cases hbinary : s.binaryLoop with
  | none => exact .inl rfl
  | some first =>
    cases hblock : s.blockLoop with
    | none => exact .inr rfl
    | some second =>
      rw [hbinary] at hpasses
      rw [hblock] at htail
      obtain ⟨body, -, rfl⟩ := hpasses.forall₂_spells
      obtain ⟨body', -, rfl⟩ := htail.forall₂_spells
      rw [hcontent] at hshape
      have hplain := hshape.plain_of_append (.loop .binary body) (by simp [Extension.wrap])
      exact absurd rfl (hplain.ne_loop .binary body)

/-- A spec compiles to the variation that it declares, if a grammar may have this variation. -/
theorem Declares.compilesTo (h : s.Declares rule v) (hshape : v.content.WellShaped) :
    s.CompilesTo v where
  strategy := strategies_of_strategy h.strategy
  content := by
    obtain ⟨front, passes, tail, hfront, hpasses, htail, hcontent⟩ := h.content
    obtain ⟨binary, hbinary, rfl⟩ := hpasses.spells_loop
    obtain ⟨block, hblock, rfl⟩ := htail.spells_loop
    exact ⟨front, binary, block, hfront.spells_items, hbinary, hblock, hcontent⟩
  oneLoop := h.oneLoop hshape
  ignore := match s.ignore, v.ignore, h.ignore with
    | _, _, .none => .none
    | _, _, .some hread => .some (IgnoreSet.forall₂_ofParts hread)
  preventRollback := h.preventRollback

end VariationSpec

/-! ## The variations of a rule -/

namespace Document

variable {d : Document} {rule : String}

theorem filter_declaredBy_of_notMem {names : List String} (h : rule ∉ names) :
    (d.declaredBy names).filter (·.1 == rule) = [] := by
  rw [List.filter_eq_nil_iff]
  intro p hp heq
  obtain ⟨name, hname, hp⟩ := List.mem_flatMap.mp hp
  obtain ⟨s, -, rfl⟩ := List.mem_map.mp hp
  exact h (beq_iff_eq.mp heq ▸ hname)

/-- Among the specs of distinct rules, those of one rule are a block of their own. -/
theorem filter_declaredBy {names : List String} (hnodup : names.Nodup) (hmem : rule ∈ names) :
    (d.declaredBy names).filter (·.1 == rule) = (d.specsOf rule).map (rule, ·) := by
  induction names with
  | nil => cases hmem
  | cons name rest ih =>
    obtain ⟨hnot, hrest⟩ := List.nodup_cons.mp hnodup
    rw [declaredBy, List.flatMap_cons, List.filter_append]
    by_cases heq : name = rule
    · subst heq
      have hblock : ((d.specsOf name).map (name, ·)).filter (·.1 == name) =
          (d.specsOf name).map (name, ·) := by
        simp
      rw [hblock, ← declaredBy, filter_declaredBy_of_notMem hnot, List.append_nil]
    · have hblock : ((d.specsOf name).map (name, ·)).filter (·.1 == rule) = [] := by
        simp [heq]
      rw [hblock, ← declaredBy, List.nil_append]
      exact ih hrest (List.mem_of_ne_of_mem (Ne.symm heq) hmem)

theorem filter_declared (d : Document) (rule : String) :
    d.declared.filter (·.1 == rule) = (d.specsOf rule).map (rule, ·) := by
  by_cases hmem : rule ∈ d.ruleNames
  · have hnodup : d.ruleNames.Nodup := (sortedNames_pairwise _).nodup
    exact filter_declaredBy hnodup hmem
  · have hspecs : d.specsOf rule = [] := by
      by_contra hne
      exact hmem (mem_ruleNames_of_specsOf hne)
    rw [hspecs]
    exact filter_declaredBy_of_notMem hmem

/-- The variations of a rule are those of its specs, in the same order. -/
theorem Describes.forall₂_variationsOf {g : Grammar} (h : d.Describes g) (rule : String) :
    List.Forall₂ VariationSpec.CompilesTo (d.specsOf rule) (g.variationsOf rule) := by
  have hdeclares : List.Forall₂ (fun s v => s.Declares rule v) (d.specsOf rule)
      (g.variationsOf rule) := by
    have hfilter : List.Forall₂ (fun p v => p.2.Declares p.1 v)
        (d.declared.filter (·.1 == rule)) (g.variationsOf rule) :=
      List.rel_filter (fun p v hv => by simp [hv.rule]) h.variations
    rw [filter_declared, List.forall₂_map_left_iff] at hfilter
    exact hfilter
  have hshaped : ∀ v ∈ g.variationsOf rule, v.content.WellShaped := fun v hv =>
    h.built.wellFormed.shaped v (Grammar.mem_variationsOf.mp hv).1
  have hboth := (List.forall₂_and_left _ _).mpr ⟨hshaped, hdeclares.flip⟩
  exact hboth.flip.imp fun _ _ hv => hv.2.compilesTo hv.1

/-! ## The order of the rules -/

/-- Where each name has one entry, the order of the entries does not matter. -/
theorem lookup_eq_of_perm {xs ys : List (String × List VariationSpec)} (hperm : xs.Perm ys)
    (hnodup : (xs.map Prod.fst).Nodup) (rule : String) : xs.lookup rule = ys.lookup rule := by
  induction hperm with
  | nil => rfl
  | cons x _ ih =>
    rw [List.lookup_cons, List.lookup_cons, ih (List.nodup_cons.mp hnodup).2]
  | swap x y rest =>
    -- the names differ, so at most one of the two entries is the one that is looked for
    have hne : y.1 ≠ x.1 := fun heq => (List.nodup_cons.mp hnodup).1 (heq ▸ List.mem_cons_self)
    obtain ⟨x, xspecs⟩ := x
    obtain ⟨y, yspecs⟩ := y
    simp only [List.lookup_cons]
    by_cases hy : rule = y
    · have hx : (rule == x) = false := beq_eq_false_iff_ne.mpr (hy ▸ hne)
      rw [hx]
    · have hy : (rule == y) = false := beq_eq_false_iff_ne.mpr hy
      rw [hy]
  | trans first _ ih ih' =>
    exact (ih hnodup).trans (ih' ((first.map Prod.fst).nodup_iff.mp hnodup))

theorem ruleNames_eq_of_perm {d' : Document} (hperm : d'.rules.Perm d.rules) :
    d'.ruleNames = d.ruleNames := by
  refine (sortedNames_pairwise _).eq_of_mem_iff (sortedNames_pairwise _) fun rule => ?_
  rw [ruleNames, mem_sortedNames, mem_sortedNames]
  exact (hperm.map Prod.fst).mem_iff

theorem ruleSteps_congr {d' : Document} (h : d'.specsOf = d.specsOf) (chain : Nat)
    (names : List String) : d'.ruleSteps chain names = d.ruleSteps chain names := by
  induction names generalizing chain with
  | nil => rfl
  | cons rule rest ih => rw [ruleSteps, ruleSteps, h, ih]

theorem grammar_eq_of_perm (hnodup : (d.rules.map Prod.fst).Nodup)
    {rules : List (String × List VariationSpec)} (hperm : rules.Perm d.rules) :
    { d with rules := rules }.grammar = d.grammar := by
  have hspecs : specsOf { d with rules := rules } = d.specsOf := by
    funext rule
    rw [specsOf, specsOf, lookup_eq_of_perm hperm.symm hnodup rule]
  have hsteps : steps { d with rules := rules } = d.steps := by
    rw [steps, steps, ruleNames_eq_of_perm hperm, ruleSteps_congr hspecs]
  rw [grammar, grammar, hsteps]

/-! ## Main result -/

/-- **Documents compile faithfully.** Compilation ends with an error exactly if a spec is faulty,
and the error names the first faulty spec in the order of rule names and numbers. A grammar that
comes out has the variations of the specs and no others, so a rule without specs is undefined. If
each rule is declared once, the rules may be enumerated in any order. -/
theorem grammar_faithful (d : Document) :
    ((∃ e, d.grammar = .error (.compile e)) ↔ ∃ rule i, d.FaultyAt rule i) ∧
      (∀ e, d.grammar = .error (.compile e) → d.FaultyAt e.rule e.variation ∧
        (∀ rule i, d.FaultyAt rule i → e.rule < rule ∨ e.rule = rule ∧ e.variation ≤ i) ∧
        (Problem.compile e).message = "rule(" ++ e.rule ++ ") variation " ++
          Number.integerText e.variation ++ ": " ++ e.fault.message) ∧
      (∀ g, d.grammar = .ok g → ∀ rule,
        List.Forall₂ VariationSpec.CompilesTo (d.specsOf rule) (g.variationsOf rule) ∧
        (d.specsOf rule = [] → g.has rule = false)) ∧
      ((d.rules.map Prod.fst).Nodup → ∀ rules : List (String × List VariationSpec),
        rules.Perm d.rules → { d with rules := rules }.grammar = d.grammar) := by
  refine ⟨exists_compile_iff, fun e he => ?_, fun g hg rule => ?_,
    fun hnodup rules hperm => grammar_eq_of_perm hnodup hperm⟩
  · obtain ⟨-, hfaulty, hleast⟩ :=
      ruleSteps_eq_error (sortedNames_pairwise _) (grammar_eq_compile_iff.mp he)
    exact ⟨hfaulty, fun rule i hi => hleast rule hi.mem_ruleNames i hi, rfl⟩
  · have hvariations := (describes_of_grammar hg).forall₂_variationsOf rule
    refine ⟨hvariations, fun hnone => Bool.eq_false_iff.mpr fun hhas => ?_⟩
    rw [hnone] at hvariations
    exact Grammar.has_iff.mp hhas (List.forall₂_nil_left_iff.mp hvariations)

/-- A document with a choice, both kinds of loops, an empty ignore set and a rule without specs. -/
def listing : Document :=
  ⟨"list", ["@NL"], 0,
    [("spare", []),
     ("sum", [{ VariationSpec.empty with
        items := some [.list [.text "@INT", .text "@ID"]]
        binaryLoop := some [.text "@ADD&", .text "@INT"]
        ignore := some []
        fold := "Sum" }]),
     ("list", [
      { VariationSpec.empty with
        items := some [.text "$sum"]
        blockLoop := some [.text "@SEMI&", .text "$sum"]
        preventRollback := true
        pass := true },
      { VariationSpec.empty with select := some 0 }])]⟩

/-- The grammar of the listing. -/
def listingGrammar : Grammar :=
  ⟨"list", [.token "NL"],
    [⟨"list", [.atom (.rule "sum"), .loop .block [.atom (Atom.token "SEMI").skipped,
        .atom (.rule "sum")]], .pass, none, true⟩,
     ⟨"list", [], .select 0, none, false⟩,
     ⟨"sum", [.either ⟨[.token "INT", .token "ID"], none⟩, .loop .binary
        [.atom (Atom.token "ADD").skipped, .atom (.token "INT")]], .fold "Sum", some [], false⟩]⟩

/-- A document with two faulty specs: the only one of the first rule, which has no strategy, and the
second one of the other rule, in which a candidate is not a text. -/
def faultyListing : Document :=
  ⟨"list", [], 0,
    [("sum", [.empty]),
     ("list", [{ VariationSpec.empty with pass := true },
      { VariationSpec.empty with
        items := some [.list [.text "@INT", .bool true]]
        pass := true }])]⟩

/-- The fault that is reported. -/
def listingFault : CompileError := ⟨"list", 1, .candidate (.bool true)⟩

/-- The specs of the listing are the variations of its grammar, also if the rules are enumerated
backwards. Of two faulty specs, the error names that of `list`, which comes before `sum`. -/
theorem grammar_faithful_listing :
    listing.grammar = .ok listingGrammar ∧
      List.Forall₂ VariationSpec.CompilesTo (listing.specsOf "list")
        (listingGrammar.variationsOf "list") ∧
      listingGrammar.has "spare" = false ∧
      { listing with rules := listing.rules.reverse }.grammar = .ok listingGrammar ∧
      faultyListing.grammar = .error (.compile listingFault) ∧
      faultyListing.FaultyAt "sum" 0 ∧ faultyListing.FaultyAt "list" 1 ∧
      (Problem.compile listingFault).message =
        "rule(list) variation 1: either candidate true (bool) is not a string" := by
  have hgrammar : listing.grammar = .ok listingGrammar := rfl
  have hfault : faultyListing.grammar = .error (.compile listingFault) := rfl
  have hsum : faultyListing.FaultyAt "sum" 0 := ⟨.empty, rfl, .inl (by decide)⟩
  obtain ⟨-, -, hcompiles, horder⟩ := grammar_faithful listing
  have hreverse := horder (by decide) _ listing.rules.reverse_perm
  obtain ⟨-, hleast, -⟩ := grammar_faithful faultyListing
  obtain ⟨hlist, -, hmessage⟩ := hleast listingFault hfault
  exact ⟨hgrammar, (hcompiles _ hgrammar "list").1, (hcompiles _ hgrammar "spare").2 rfl,
    hreverse.trans hgrammar, hfault, hsum, hlist, hmessage⟩

end Document
end TokenGrammar
