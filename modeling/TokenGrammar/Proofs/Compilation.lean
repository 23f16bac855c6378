import Mathlib.Data.List.Forall2
import TokenGrammar.Document.Basic
import TokenGrammar.Proofs.WellFormed

/-!
# Compiled documents

A document is compiled by the calls on a builder that its specs stand for. A builder that gives a
grammar recorded no misuse, at no time, so every call of the compilation did what it was made for:
each spec opened a chain, extended it by its items and loops, and committed one variation. The
grammar of a document therefore has a variation for every spec, in the order of the specs, and the
spec says what is in it.

## Main definitions

* `Builder.withChain`: a builder while a chain is in the making.
* `VariationSpec.Declares`: the variation of a spec.
* `Document.declared`: all specs of a document with their rules.
* `Document.Describes`: the grammar of a document.
-/
namespace TokenGrammar

/-- A result that was changed after it was computed had been computed. -/
theorem exists_of_map_eq_ok {ε α β : Type} {x : Except ε α} {f : α → β} {y : β}
    (h : x.map f = .ok y) : ∃ a, x = .ok a ∧ f a = y := by
  cases x with
  | error e => cases h
  | ok a =>
    cases h
    exact ⟨a, rfl, rfl⟩

/-! ## Recorded misuse -/

namespace Builder

variable {b : Builder} {c : Chain}

theorem errors_prefix_refuse (b : Builder) (rule : String) (fault : ConfigFault) :
    b.errors <+: (b.refuse rule fault).errors :=
  List.prefix_append _ _

theorem errors_prefix_onOpen {n : Nat} {operation : Operation} {change : Chain → Builder}
    (h : ∀ c, b.errors <+: (change c).errors) :
    b.errors <+: (b.onOpen n operation change).errors := by
  rw [onOpen]
  split
  · exact List.prefix_rfl
  · split
    · exact b.errors_prefix_refuse _ _
    · exact h _

theorem errors_prefix_finish (b : Builder) (n : Nat) (strategy : Option Strategy) :
    b.errors <+: (b.finish n strategy).errors := by
  rw [finish]
  split
  · exact List.prefix_rfl
  · split
    · exact b.errors_prefix_refuse _ _
    · dsimp only
      split
      · exact List.prefix_append _ _
      · split
        · exact List.prefix_append _ _
        · exact List.prefix_rfl

/-- No call takes back what was recorded. -/
theorem errors_prefix_apply (b : Builder) (step : Step) : b.errors <+: (b.apply step).errors := by
  cases step with
  | rule name =>
    simp only [apply, openChain]
    split
    · exact b.errors_prefix_refuse _ _
    · exact List.prefix_rfl
  | extend n extension parts =>
    refine errors_prefix_onOpen fun c => ?_
    split
    · exact b.errors_prefix_refuse _ _
    · exact List.prefix_rfl
  | ignoring n parts =>
    refine errors_prefix_onOpen fun c => ?_
    split
    · exact b.errors_prefix_refuse _ _
    · exact List.prefix_rfl
  | preventRollback n => exact errors_prefix_onOpen fun c => List.prefix_rfl
  | finish n strategy => exact b.errors_prefix_finish n strategy
  | ignoreGlobally parts =>
    simp only [apply, ignoreGlobally]
    split
    · exact b.errors_prefix_refuse _ _
    · exact List.prefix_rfl
  | startFrom rule => exact List.prefix_rfl

/-- If nothing is recorded at the end, nothing was recorded before. -/
theorem errors_of_run {steps : List Step} (h : (b.run steps).errors = []) : b.errors = [] := by
  induction steps generalizing b with
  | nil => exact h
  | cons step steps ih => exact List.prefix_nil.mp (ih h ▸ b.errors_prefix_apply step)

theorem not_errors_refuse {rule : String} {fault : ConfigFault} {steps : List Step}
    (h : ((b.refuse rule fault).run steps).errors = []) : False :=
  List.append_ne_nil_of_right_ne_nil _ (List.cons_ne_nil _ _) (errors_of_run h)

/-! ## Chains -/

/-- The builder with one more chain, which is in the making. -/
def withChain (b : Builder) (c : Chain) : Builder := { b with chains := b.chains ++ [c] }

theorem openChain_eq_withChain {name : String} (h : name ≠ "") :
    b.openChain name = b.withChain (.fresh name) := by
  rw [openChain, if_neg h]
  rfl

theorem setChain_withChain (b : Builder) (c c' : Chain) :
    (b.withChain c).setChain b.chains.length c' = b.withChain c' := by
  simp [withChain, setChain]

theorem onOpen_withChain (hopen : c.finalized = false) (operation : Operation)
    (change : Chain → Builder) :
    (b.withChain c).onOpen b.chains.length operation change = change c := by
  simp [withChain, onOpen, hopen]

/-- What an optional call adds to the content of a chain. -/
inductive Adds (extension : Extension) : Option (List Part) → Content → Prop
  | missing : Adds extension none []
  | listed {parts : List Part} {content : Content} (read : Content.ofParts parts = .ok content) :
      Adds extension (some parts) (extension.wrap content)

/-- The calls before `rest` extend the chain, since otherwise a misuse would be recorded. -/
theorem run_extend (hopen : c.finalized = false) {extension : Extension}
    {parts : Option (List Part)} {rest : List Step}
    (h : ((b.withChain c).run
      ((parts.map (.extend b.chains.length extension)).toList ++ rest)).errors = []) :
    ∃ content, Adds extension parts content ∧
      (b.withChain c).run ((parts.map (.extend b.chains.length extension)).toList ++ rest) =
        (b.withChain { c with content := c.content ++ content }).run rest := by
  cases parts with
  | none => exact ⟨[], .missing, by simp⟩
  | some parts =>
    simp only [Option.map_some, Option.toList_some, List.singleton_append, run_cons, apply, extend,
      onOpen_withChain hopen] at h ⊢
    cases hread : Content.ofParts parts with
    | error e =>
      rw [hread] at h
      exact (not_errors_refuse h).elim
    | ok content =>
      refine ⟨_, .listed hread, ?_⟩
      simp only [setChain_withChain]

theorem run_ignoring (hopen : c.finalized = false) (hnone : c.ignore = none)
    {parts : Option (List Part)} {rest : List Step}
    (h : ((b.withChain c).run
      ((parts.map (.ignoring b.chains.length)).toList ++ rest)).errors = []) :
    ∃ set, Option.Rel (fun parts set => IgnoreSet.ofParts parts = .ok set) parts set ∧
      (b.withChain c).run ((parts.map (.ignoring b.chains.length)).toList ++ rest) =
        (b.withChain { c with ignore := set }).run rest := by
  cases parts with
  | none => exact ⟨none, .none, by simp [← hnone]⟩
  | some parts =>
    simp only [Option.map_some, Option.toList_some, List.singleton_append, run_cons, apply,
      ignoring, onOpen_withChain hopen] at h ⊢
    cases hread : IgnoreSet.ofParts parts with
    | error e =>
      rw [hread] at h
      exact (not_errors_refuse h).elim
    | ok set =>
      refine ⟨some set, .some hread, ?_⟩
      simp only [setChain_withChain, hnone, Option.getD_none, List.nil_append]

theorem run_preventRollback (hopen : c.finalized = false) (hflag : c.preventRollback = false)
    (flag : Bool) (rest : List Step) :
    (b.withChain c).run ((if flag then [.preventRollback b.chains.length] else []) ++ rest) =
      (b.withChain { c with preventRollback := flag }).run rest := by
  cases flag with
  | false =>
    have hsame : { c with preventRollback := false } = c := by rw [← hflag]
    rw [hsame]
    rfl
  | true =>
    simp only [if_true, List.singleton_append, run_cons, apply, preventRollback,
      onOpen_withChain hopen, setChain_withChain]

theorem finish_withChain (hopen : c.finalized = false) {strategy : Strategy}
    (h : ((b.withChain c).finish b.chains.length (some strategy)).errors = []) :
    (b.withChain c).finish b.chains.length (some strategy) =
      (b.withChain { c with finalized := true }).commit (c.toVariation strategy) := by
  have hget : (b.withChain c).chains[b.chains.length]? = some c := by simp [withChain]
  simp only [finish, hget, hopen, setChain_withChain, Bool.false_eq_true, if_false] at h ⊢
  cases hfault : strategy.fault? with
  | some fault =>
    rw [hfault] at h
    exact (@not_errors_refuse _ _ _ [] h).elim
  | none => rfl

theorem chainSteps_eq_cons (n : Nat) (name : String)
    (items binary block ignore : Option (List Part)) (flag : Bool) (strategy : Option Strategy) :
    chainSteps n name items binary block ignore flag strategy =
      .rule name :: ((items.map (.extend n .items)).toList ++
        ((binary.map (.extend n (.loop .binary))).toList ++
          ((block.map (.extend n (.loop .block))).toList ++
            ((ignore.map (.ignoring n)).toList ++
              ((if flag then [.preventRollback n] else []) ++ [.finish n strategy]))))) := by
  simp only [chainSteps, List.append_assoc, List.cons_append, List.nil_append]

/-- The calls of a whole chain commit one variation, which holds what was called for. -/
theorem run_chainSteps {name : String} {items binary block ignore : Option (List Part)}
    {flag : Bool} {strategy : Strategy}
    (h : (b.run (chainSteps b.chains.length name items binary block ignore flag
      (some strategy))).errors = []) :
    ∃ front passes tail set closed, Adds .items items front ∧
      Adds (.loop .binary) binary passes ∧ Adds (.loop .block) block tail ∧
      Option.Rel (fun parts set => IgnoreSet.ofParts parts = .ok set) ignore set ∧
      b.run (chainSteps b.chains.length name items binary block ignore flag (some strategy)) =
        (b.withChain closed).commit ⟨name, front ++ passes ++ tail, strategy, set, flag⟩ := by
  rw [chainSteps_eq_cons, run_cons, apply] at h ⊢
  by_cases hname : name = ""
  · rw [openChain, if_pos hname] at h
    exact absurd (errors_of_run h) (List.append_ne_nil_of_right_ne_nil _ (List.cons_ne_nil _ _))
  · rw [openChain_eq_withChain hname] at h ⊢
    obtain ⟨front, hfront, heq⟩ := run_extend rfl h
    rw [heq] at h ⊢
    obtain ⟨passes, hpasses, heq⟩ := run_extend rfl h
    rw [heq] at h ⊢
    obtain ⟨tail, htail, heq⟩ := run_extend rfl h
    rw [heq] at h ⊢
    obtain ⟨set, hset, heq⟩ := run_ignoring rfl rfl h
    rw [heq, run_preventRollback rfl rfl] at h ⊢
    exact ⟨front, passes, tail, set, _, hfront, hpasses, htail, hset, finish_withChain rfl h⟩

/-- A builder that committed some variations in addition, and opened a chain for each. -/
structure Extends (b b' : Builder) (vs : List Variation) : Prop where
  start : b'.start = b.start
  ignore : b'.ignore = b.ignore
  variations : b'.variations = b.variations ++ vs
  chains : b'.chains.length = b.chains.length + vs.length

theorem Extends.refl (b : Builder) : b.Extends b [] :=
  ⟨rfl, rfl, (List.append_nil _).symm, rfl⟩

theorem Extends.trans {b' b'' : Builder} {vs ws : List Variation} (h : b.Extends b' vs)
    (h' : b'.Extends b'' ws) : b.Extends b'' (vs ++ ws) where
  start := h'.start.trans h.start
  ignore := h'.ignore.trans h.ignore
  variations := by rw [h'.variations, h.variations, List.append_assoc]
  chains := by rw [h'.chains, h.chains, List.length_append, Nat.add_assoc]

theorem extends_commit (b : Builder) (c : Chain) (v : Variation) :
    b.Extends ((b.withChain c).commit v) [v] :=
  ⟨rfl, rfl, rfl, List.length_append⟩

end Builder

/-! ## Items -/

/-- Every right-hand side of related lists has a left-hand side. -/
theorem exists_of_forall₂ {α β : Type} {R : α → β → Prop} {xs : List α} {ys : List β}
    (h : List.Forall₂ R xs ys) {y : β} (hy : y ∈ ys) : ∃ x ∈ xs, R x y := by
  induction h with
  | nil => cases hy
  | cons head _ ih =>
    rcases List.mem_cons.mp hy with rfl | hy
    · exact ⟨_, List.mem_cons_self, head⟩
    · obtain ⟨x, hx, hr⟩ := ih hy
      exact ⟨x, List.mem_cons_of_mem _ hx, hr⟩

/-- The texts of a list of candidates. -/
def candidateTexts (candidates : List Value) : List String :=
  candidates.filterMap fun
    | .text s => some s
    | _ => none

/-- The shorthands in an item of a spec. -/
def shorthandsIn : Value → List String
  | .text s => [s]
  | .list candidates => candidateTexts candidates
  | _ => []

/-- The items of content are those of its parts, in the same order. -/
theorem Content.forall₂_ofParts {ps : List Part} {content : Content}
    (h : Content.ofParts ps = .ok content) :
    List.Forall₂ (fun p i => p.toItem = .ok i) ps content := by
  induction ps generalizing content with
  | nil =>
    cases h
    exact .nil
  | cons p ps ih =>
    rw [Content.ofParts] at h
    cases hp : p.toItem with
    | error e => rw [hp] at h; cases h
    | ok i =>
      rw [hp] at h
      obtain ⟨rest, hrest, rfl⟩ := exists_of_map_eq_ok h
      exact .cons hp (ih hrest)

/-- An item of a spec stands for an item of content. -/
def Writes (x : Value) (i : Item) : Prop := ∃ p, itemPart x = .ok p ∧ p.toItem = .ok i

theorem forall₂_writes {items : List Value} {parts : List Part} {content : Content}
    (hparts : itemParts items = .ok parts) (hread : Content.ofParts parts = .ok content) :
    List.Forall₂ Writes items content := by
  replace hread := Content.forall₂_ofParts hread
  induction items generalizing parts content with
  | nil =>
    cases hparts
    cases hread
    exact .nil
  | cons x rest ih =>
    rw [itemParts] at hparts
    cases hx : itemPart x with
    | error e => rw [hx] at hparts; cases hparts
    | ok p =>
      rw [hx] at hparts
      obtain ⟨ps, hps, rfl⟩ := exists_of_map_eq_ok hparts
      cases hread with
      | cons hi hrest => exact .cons ⟨p, hx, hi⟩ (ih hps hrest)

/-- The parts of candidates are shorthands. -/
theorem mem_candidateParts {candidates : List Value} {parts : List Part}
    (h : candidateParts candidates = .ok parts) {p : Part} (hp : p ∈ parts) :
    ∃ text ∈ candidateTexts candidates, p = .shorthand text := by
  induction candidates generalizing parts with
  | nil =>
    cases h
    cases hp
  | cons x rest ih =>
    rw [candidateParts] at h
    cases x with
    | text s =>
      obtain ⟨ps, hps, rfl⟩ := exists_of_map_eq_ok h
      rcases List.mem_cons.mp hp with rfl | hp
      · exact ⟨s, List.mem_cons_self, rfl⟩
      · obtain ⟨text, htext, heq⟩ := ih hps hp
        exact ⟨text, List.mem_cons_of_mem _ htext, heq⟩
    | _ => cases h

/-- A candidate of a choice comes from one of its parts. -/
theorem mem_oneOf {parts : List Part} {a : Atom} (h : a ∈ (Either.oneOf parts).candidates) :
    ∃ p ∈ parts, p.candidate = .ok a := by
  induction parts with
  | nil => cases h
  | cons p rest ih =>
    simp only [Either.oneOf] at h
    cases hp : p.candidate with
    | error e =>
      simp only [hp] at h
      obtain ⟨q, hq, hread⟩ := ih h
      exact ⟨q, List.mem_cons_of_mem _ hq, hread⟩
    | ok b =>
      simp only [hp] at h
      rcases List.mem_cons.mp h with rfl | h
      · exact ⟨p, List.mem_cons_self, hp⟩
      · obtain ⟨q, hq, hread⟩ := ih h
        exact ⟨q, List.mem_cons_of_mem _ hq, hread⟩

/-- A choice without a fault has the candidates of all its parts, in their order. -/
theorem Either.forall₂_oneOf {parts : List Part} (h : (Either.oneOf parts).fault = none) :
    List.Forall₂ (fun p a => p.candidate = .ok a) parts (Either.oneOf parts).candidates := by
  induction parts with
  | nil => exact .nil
  | cons p rest ih =>
    simp only [Either.oneOf] at h ⊢
    cases hp : p.candidate with
    | error e =>
      rw [hp] at h
      cases h
    | ok a =>
      rw [hp] at h
      exact .cons hp (ih h)

theorem Part.toItem_shorthand {text : String} {i : Item}
    (h : (Part.shorthand text).toItem = .ok i) : ∃ a, Atom.read text = .ok a ∧ i = .atom a := by
  rw [Part.toItem] at h
  cases hread : Atom.read text with
  | error e => rw [hread] at h; cases h
  | ok a =>
    rw [hread] at h
    cases h
    exact ⟨a, rfl, rfl⟩

theorem Part.candidate_shorthand {text : String} {a : Atom}
    (h : (Part.shorthand text).candidate = .ok a) : Atom.read text = .ok a := by
  rw [Part.candidate] at h
  cases hread : Atom.read text with
  | error e => rw [hread] at h; cases h
  | ok b =>
    rw [hread] at h
    cases h
    rfl

/-- The items of a spec are atoms and choices, and all atoms in them are written as shorthands. -/
theorem Writes.read {x : Value} {i : Item} (h : Writes x i) :
    (∀ kind body, i ≠ .loop kind body) ∧
      ∀ a ∈ i.alternatives, ∃ text ∈ shorthandsIn x, Atom.read text = .ok a := by
  obtain ⟨p, hp, hi⟩ := h
  cases x with
  | text s =>
    cases hp
    obtain ⟨a, hread, rfl⟩ := Part.toItem_shorthand hi
    refine ⟨fun kind body => by simp, ?_⟩
    intro b hb
    cases List.mem_singleton.mp hb
    exact ⟨s, List.mem_singleton_self s, hread⟩
  | list candidates =>
    obtain ⟨ps, hps, rfl⟩ := exists_of_map_eq_ok hp
    have heq : i = .either (.oneOf ps) := by
      rw [Part.toItem] at hi
      split at hi
      · exact (Except.ok.inj hi).symm
      · cases hi
    subst heq
    refine ⟨fun kind body => by simp, ?_⟩
    intro a ha
    obtain ⟨q, hq, hcandidate⟩ := mem_oneOf ha
    obtain ⟨text, htext, rfl⟩ := mem_candidateParts hps hq
    exact ⟨text, htext, Part.candidate_shorthand hcandidate⟩
  | _ => cases hp

/-- The items of a list are no loops, so a loop around them is the only one. -/
theorem mem_of_mem_items_wrap {items : List Value} {content : Content}
    (h : List.Forall₂ Writes items content) {extension : Extension} {i : Item}
    (hi : i ∈ Content.items (extension.wrap content)) : i ∈ content := by
  cases extension with
  | loop kind => simpa [Extension.wrap, Content.items] using hi
  | items =>
    have hsingle : Content.items content = content := by
      clear hi
      induction h with
      | nil => rfl
      | cons head _ ih => rw [Content.items_cons head.read.1, ih]
    rw [Extension.wrap, hsingle] at hi
    exact hi

/-! ## Specs -/

namespace VariationSpec

/-- A spec that has a strategy sets this one alone. -/
theorem strategies_of_strategy {s : VariationSpec} {strategy : Strategy}
    (h : s.strategy = .ok strategy) : s.strategies = [strategy] := by
  rw [VariationSpec.strategy] at h
  split at h
  · cases h
  · next hsingle =>
    cases h
    exact hsingle
  · cases h

/-- What a list of items, which may be missing, adds to the content of a variation. -/
def Reads (extension : Extension) (items : Option (List Value)) (content : Content) : Prop :=
  ∃ parts, itemParts? items = .ok parts ∧ Builder.Adds extension parts content

/-- The variation that a spec of a rule declares: its items, then its loops. -/
structure Declares (s : VariationSpec) (rule : String) (v : Variation) : Prop where
  rule : v.rule = rule
  strategy : s.strategy = .ok v.strategy
  content : ∃ front passes tail, Reads .items s.items front ∧
    Reads (.loop .binary) s.binaryLoop passes ∧ Reads (.loop .block) s.blockLoop tail ∧
    v.content = front ++ passes ++ tail
  ignore : Option.Rel (fun atoms set => IgnoreSet.ofParts (atoms.map .shorthand) = .ok set)
    s.ignore v.ignore
  preventRollback : v.preventRollback = s.preventRollback

theorem steps_eq_ok {s : VariationSpec} {rule : String} {n : Nat} {steps : List Step}
    (h : s.steps rule n = .ok steps) :
    ∃ strategy items binary block, s.strategy = .ok strategy ∧ itemParts? s.items = .ok items ∧
      itemParts? s.binaryLoop = .ok binary ∧ itemParts? s.blockLoop = .ok block ∧
      steps = Builder.chainSteps n rule items binary block
        (s.ignore.map fun atoms => atoms.map .shorthand) s.preventRollback (some strategy) := by
  rw [VariationSpec.steps] at h
  split at h
  · cases h
  · cases h
  · cases h
  · cases h
  · next strategy items binary block hstrategy hitems hbinary hblock =>
    cases h
    exact ⟨strategy, items, binary, block, hstrategy, hitems, hbinary, hblock, rfl⟩

/-- The shorthands of a spec, in its items and in both of its loops. -/
def shorthands (s : VariationSpec) : List String :=
  (s.items.getD [] ++ s.binaryLoop.getD [] ++ s.blockLoop.getD []).flatMap shorthandsIn

/-- Every item that a list adds, at the top or in the loop around it, is written in the list. -/
theorem Reads.writes {extension : Extension} {items : Option (List Value)} {content : Content}
    (h : Reads extension items content) {i : Item} (hi : i ∈ content.items) :
    ∃ x ∈ items.getD [], Writes x i := by
  obtain ⟨parts, hparts, hadds⟩ := h
  cases hadds with
  | missing => cases hi
  | @listed parts content read =>
    cases items with
    | none => cases hparts
    | some items =>
      obtain ⟨_, hsplit, heq⟩ := exists_of_map_eq_ok hparts
      cases heq
      have hwrites := forall₂_writes hsplit read
      exact exists_of_forall₂ hwrites (mem_of_mem_items_wrap hwrites hi)

theorem Declares.writes {s : VariationSpec} {rule : String} {v : Variation}
    (h : s.Declares rule v) {i : Item} (hi : i ∈ v.content.items) :
    ∃ x ∈ s.items.getD [] ++ s.binaryLoop.getD [] ++ s.blockLoop.getD [], Writes x i := by
  obtain ⟨front, passes, tail, hfront, hpasses, htail, hcontent⟩ := h.content
  rw [hcontent, Content.items_append, Content.items_append, List.mem_append, List.mem_append] at hi
  simp only [List.mem_append]
  rcases hi with (hi | hi) | hi
  · obtain ⟨x, hx, hwritten⟩ := hfront.writes hi
    exact ⟨x, .inl (.inl hx), hwritten⟩
  · obtain ⟨x, hx, hwritten⟩ := hpasses.writes hi
    exact ⟨x, .inl (.inr hx), hwritten⟩
  · obtain ⟨x, hx, hwritten⟩ := htail.writes hi
    exact ⟨x, .inr hx, hwritten⟩

/-- All atoms of a variation are written in its spec. -/
theorem Declares.read {s : VariationSpec} {rule : String} {v : Variation} (h : s.Declares rule v)
    {i : Item} (hi : i ∈ v.content.items) {a : Atom} (ha : a ∈ i.alternatives) :
    ∃ text ∈ s.shorthands, Atom.read text = .ok a := by
  obtain ⟨x, hx, hwritten⟩ := h.writes hi
  obtain ⟨text, htext, hread⟩ := hwritten.read.2 a ha
  exact ⟨text, List.mem_flatMap.mpr ⟨x, hx, htext⟩, hread⟩

/-- The calls of a spec commit the variation that it declares. -/
theorem run_steps {b : Builder} {s : VariationSpec} {rule : String} {steps : List Step}
    (hsteps : s.steps rule b.chains.length = .ok steps) (h : (b.run steps).errors = []) :
    ∃ v, s.Declares rule v ∧ b.Extends (b.run steps) [v] := by
  obtain ⟨strategy, items, binary, block, hstrategy, hitems, hbinary, hblock, rfl⟩ :=
    steps_eq_ok hsteps
  obtain ⟨front, passes, tail, set, closed, hfront, hpasses, htail, hset, heq⟩ :=
    Builder.run_chainSteps h
  refine ⟨_, ⟨rfl, hstrategy, ?_, ?_, rfl⟩, heq ▸ Builder.extends_commit _ _ _⟩
  · exact ⟨front, passes, tail, ⟨items, hitems, hfront⟩, ⟨binary, hbinary, hpasses⟩,
      ⟨block, hblock, htail⟩, rfl⟩
  · cases hignore : s.ignore with
    | none =>
      rw [hignore] at hset
      cases hset
      exact .none
    | some atoms =>
      rw [hignore] at hset
      cases hset with
      | some hread => exact .some hread

end VariationSpec

/-! ## Documents -/

namespace Document

variable {d : Document}

/-- The specs of some rules, each with the name of its rule. -/
def declaredBy (d : Document) (names : List String) : List (String × VariationSpec) :=
  names.flatMap fun rule => (d.specsOf rule).map (rule, ·)

/-- All specs of a document with their rules, in the order in which they are compiled. -/
def declared (d : Document) : List (String × VariationSpec) := d.declaredBy d.ruleNames

/-- The grammar that a document describes. -/
structure Describes (d : Document) (g : Grammar) : Prop where
  built : g.Built
  start : g.start = d.start
  ignore : IgnoreSet.ofParts (d.ignore.map .shorthand) = .ok g.ignore
  variations : List.Forall₂ (fun p v => p.2.Declares p.1 v) d.declared g.variations

theorem run_specSteps {b : Builder} {rule : String} {index : Nat} {specs : List VariationSpec}
    {steps : List Step} (hsteps : specSteps rule index b.chains.length specs = .ok steps)
    (h : (b.run steps).errors = []) :
    ∃ vs, List.Forall₂ (fun p v => p.2.Declares p.1 v) (specs.map (rule, ·)) vs ∧
      b.Extends (b.run steps) vs := by
  induction specs generalizing b index steps with
  | nil =>
    cases hsteps
    exact ⟨[], .nil, .refl b⟩
  | cons spec rest ih =>
    rw [specSteps] at hsteps
    cases hspec : spec.steps rule b.chains.length with
    | error e => rw [hspec] at hsteps; cases hsteps
    | ok first =>
      rw [hspec] at hsteps
      obtain ⟨later, hrest, rfl⟩ := exists_of_map_eq_ok hsteps
      rw [Builder.run_append] at h ⊢
      obtain ⟨v, hv, hextends⟩ := VariationSpec.run_steps hspec (Builder.errors_of_run h)
      obtain ⟨vs, hvs, hlater⟩ := ih (hextends.chains ▸ hrest) h
      exact ⟨v :: vs, .cons hv hvs, hextends.trans hlater⟩

theorem run_ruleSteps {b : Builder} {names : List String} {steps : List Step}
    (hsteps : d.ruleSteps b.chains.length names = .ok steps) (h : (b.run steps).errors = []) :
    ∃ vs, List.Forall₂ (fun p v => p.2.Declares p.1 v) (d.declaredBy names) vs ∧
      b.Extends (b.run steps) vs := by
  induction names generalizing b steps with
  | nil =>
    cases hsteps
    exact ⟨[], .nil, .refl b⟩
  | cons rule rest ih =>
    rw [ruleSteps] at hsteps
    cases hspecs : specSteps rule 0 b.chains.length (d.specsOf rule) with
    | error e => rw [hspecs] at hsteps; cases hsteps
    | ok first =>
      rw [hspecs] at hsteps
      obtain ⟨later, hrest, rfl⟩ := exists_of_map_eq_ok hsteps
      rw [Builder.run_append] at h ⊢
      obtain ⟨vs, hvs, hextends⟩ := run_specSteps hspecs (Builder.errors_of_run h)
      have hlength : (d.specsOf rule).length = vs.length := by
        simpa using hvs.length_eq
      obtain ⟨ws, hws, hlater⟩ := ih (hextends.chains ▸ hlength ▸ hrest) h
      exact ⟨vs ++ ws, List.rel_append hvs hws, hextends.trans hlater⟩

theorem grammar_eq_ok {g : Grammar} (h : d.grammar = .ok g) :
    ∃ rules, d.ruleSteps 0 d.ruleNames = .ok rules ∧
      (Builder.empty.run (.startFrom d.start ::
        .ignoreGlobally (d.ignore.map .shorthand) :: rules)).build = .ok g := by
  rw [grammar] at h
  cases hsteps : d.steps with
  | error e => rw [hsteps] at h; cases h
  | ok steps =>
    obtain ⟨rules, hrules, rfl⟩ := exists_of_map_eq_ok hsteps
    refine ⟨rules, hrules, ?_⟩
    rw [hsteps] at h
    dsimp only at h
    split at h
    · cases h
    · next hbuild =>
      cases h
      exact hbuild

/-- A document has the grammar that its steps build, if nothing is wrong. The builder is asked for
one thing after the other, so that for a given document each of them is evaluated once. -/
theorem grammar_of_run {steps : List Step} {g : Grammar} (hsteps : d.steps = .ok steps)
    (herrors : (Builder.empty.run steps).errors = [])
    (hopen : (Builder.empty.run steps).openErrors = [])
    (hgrammar : (Builder.empty.run steps).grammar = g) (hproblems : g.problems = []) :
    d.grammar = .ok g := by
  have hbuild : (Builder.empty.run steps).build = .ok g := by
    refine Builder.build_eq_ok_iff.mpr ⟨?_, hgrammar⟩
    rw [Builder.problems, herrors, hopen, hgrammar, hproblems]
    rfl
  rw [grammar, hsteps]
  dsimp only
  rw [hbuild]

/-- The start rule and the ignore set are given before any rule. -/
theorem run_globals {start : String} {ignore : List Part} {rules : List Step}
    (h : (Builder.empty.run (.startFrom start :: .ignoreGlobally ignore :: rules)).errors = []) :
    ∃ set, IgnoreSet.ofParts ignore = .ok set ∧
      Builder.empty.run (.startFrom start :: .ignoreGlobally ignore :: rules) =
        Builder.run ⟨start, set, [], [], []⟩ rules := by
  simp only [Builder.run_cons, Builder.apply, Builder.ignoreGlobally] at h ⊢
  cases hread : IgnoreSet.ofParts ignore with
  | error e =>
    rw [hread] at h
    exact (Builder.not_errors_refuse h).elim
  | ok set => exact ⟨set, rfl, rfl⟩

/-- A document that has a grammar describes it. -/
theorem describes_of_grammar {g : Grammar} (h : d.grammar = .ok g) : d.Describes g := by
  obtain ⟨rules, hrules, hbuild⟩ := grammar_eq_ok h
  obtain ⟨hproblems, rfl⟩ := Builder.build_eq_ok_iff.mp hbuild
  have herrors := (List.append_eq_nil_iff.mp (List.append_eq_nil_iff.mp hproblems).1).1
  obtain ⟨set, hset, heq⟩ := run_globals herrors
  rw [heq] at herrors
  obtain ⟨vs, hvs, hextends⟩ := run_ruleSteps (b := ⟨d.start, set, [], [], []⟩) hrules herrors
  rw [← heq] at hextends
  refine ⟨⟨_, hbuild⟩, hextends.start, ?_, ?_⟩
  · rw [hset]
    exact congrArg Except.ok hextends.ignore.symm
  · rw [Builder.grammar, hextends.variations]
    exact hvs

/-- Every variation is declared by a spec of its rule. -/
theorem Describes.exists_spec {g : Grammar} (h : d.Describes g) {v : Variation}
    (hv : v ∈ g.variations) : ∃ s ∈ d.specsOf v.rule, s.Declares v.rule v := by
  obtain ⟨⟨rule, s⟩, hmem, hdeclares⟩ := exists_of_forall₂ h.variations hv
  obtain ⟨name, _, hs⟩ := List.mem_flatMap.mp hmem
  obtain ⟨s, hs, heq⟩ := List.mem_map.mp hs
  cases heq
  cases hdeclares.rule
  exact ⟨s, hs, hdeclares⟩

end Document
end TokenGrammar
