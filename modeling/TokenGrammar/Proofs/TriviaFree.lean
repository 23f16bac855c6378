import TokenGrammar.Proofs.Recognition

/-!
# Input without trivia

What a grammar says about trivia, which tokens are ignored and which variations keep the trivia at
their end, has no effect where there is none. Two grammars that differ in nothing else evaluate such
an input step by step in the same way: nothing is skipped in front of a token atom, and nothing is
given back at the end of a variation.

Where nothing is skipped, a reading is told by the tokens ahead: an atom or a choice between kinds of
tokens looks at the first of them, and a variation that can be completed ends where its last item
does.

## Main definitions

* `Variation.core`: a variation without what it says about trivia.
* `Grammar.ignoreSets`: all ignore sets that occur in a grammar.
* `Grammar.SameRules`: grammars that differ in what they say about trivia at most.
* `Cursor.past`: the cursor after tokens that were matched without trivia between them.
-/
namespace TokenGrammar

/-- The variation without what it says about trivia. -/
def Variation.core (v : Variation) : Variation :=
  { v with ignore := none, preventRollback := false }

@[simp] theorem Variation.content_core (v : Variation) : v.core.content = v.content := rfl

@[simp] theorem Variation.strategy_core (v : Variation) : v.core.strategy = v.strategy := rfl

namespace Grammar

/-- The global ignore set, and those that variations have of their own. -/
def ignoreSets (g : Grammar) : List IgnoreSet := g.ignore :: g.variations.filterMap Variation.ignore

/-- Grammars with the same variations for every rule, in the same order and with the same contents
and strategies, whatever they say about trivia. -/
def SameRules (g h : Grammar) : Prop :=
  ∀ rule, (g.variationsOf rule).map Variation.core = (h.variationsOf rule).map Variation.core

/-- The same order of the variations overall is enough. -/
theorem SameRules.of_variations {g h : Grammar}
    (hmap : g.variations.map Variation.core = h.variations.map Variation.core) : g.SameRules h := by
  intro rule
  have hfilter := congrArg (List.filter fun v => v.rule == rule) hmap
  rw [List.filter_map, List.filter_map] at hfilter
  exact hfilter

theorem SameRules.has {g h : Grammar} (same : g.SameRules h) {rule : String}
    (hr : g.has rule = true) : h.has rule = true := by
  rw [has_iff] at hr ⊢
  intro hnil
  have hrules := same rule
  rw [hnil, List.map_nil, List.map_eq_nil_iff] at hrules
  exact hr hrules

/-- What no ignore set of the grammar has is trivia for none of its variations. -/
theorem ignores_eq_false {g : Grammar} {v : Variation} (hv : v ∈ g.variations) {t : Token}
    (h : ∀ set ∈ g.ignoreSets, set.has t = false) : g.ignores (some v) t = false := by
  rw [ignores, ignoreSetFor]
  cases hset : v.ignore with
  | none => exact h g.ignore List.mem_cons_self
  | some set => exact h set (List.mem_cons_of_mem _ (List.mem_filterMap.mpr ⟨v, hv, hset⟩))

end Grammar

namespace Setting

variable {s : Setting} {v : Variation}

/-- The variation finds no trivia in the input. -/
def Clear (s : Setting) (v : Variation) : Prop := ∀ t ∈ s.tokens, s.ignored v t = false

theorem matchToken_of_clear (h : s.Clear v) (a : Atom) (c : Cursor) :
    s.matchToken v a c =
      match s.tokens[c.index]? with
      | some t =>
        if a.accepts t then ⟨.value t.toValue, ⟨c.index + 1, c.index + 1⟩, []⟩
        else ⟨.mismatch c.index, c, []⟩
      | none => ⟨.mismatch c.index, c, []⟩ := by
  have hskip := skipTrivia_eq_self h c.index
  cases hget : s.tokens[c.index]? with
  | none => simp [matchToken, hskip, hget]
  | some t => simp [matchToken, hskip, hget]

theorem settled_of_clear (h : s.Clear v) (start stop : Cursor) : s.settled v start stop = stop := by
  rw [settled, rollback, giveBack_eq_self h]
  exact ite_self stop

/-- Variations with the same core, both of which find no trivia. -/
def ClearPair (s t : Setting) (v u : Variation) : Prop := v.core = u.core ∧ s.Clear v ∧ t.Clear u

/-- Grammars with the same rules evaluate an input in which they find no trivia in the same way. -/
def clearing {g h : Grammar} (same : g.SameRules h) {tokens : List Token}
    (hg : ∀ v ∈ g.variations, Clear ⟨g, tokens⟩ v) (hh : ∀ u ∈ h.variations, Clear ⟨h, tokens⟩ u) :
    Simulation ⟨g, tokens⟩ ⟨h, tokens⟩ :=
  .ofEq (R := ClearPair ⟨g, tokens⟩ ⟨h, tokens⟩) (fun _ => False)
    (fun hv => by simpa using congrArg Variation.content hv.1)
    (fun hv => by simpa using congrArg Variation.strategy hv.1)
    (fun hv a c => by rw [matchToken_of_clear hv.2.1, matchToken_of_clear hv.2.2])
    (fun hv start stop => by rw [settled_of_clear hv.2.1, settled_of_clear hv.2.2])
    (fun rule => by
      obtain ⟨hlength, hcores⟩ := List.forall₂_iff_zip.mp (forall₂_of_map_eq (same rule))
      refine List.forall₂_iff_zip.mpr ⟨hlength, fun {v u} hmem => ?_⟩
      obtain ⟨hv, hu⟩ := List.of_mem_zip hmem
      exact ⟨hcores hmem, hg v (Grammar.mem_variationsOf.mp hv).1,
        hh u (Grammar.mem_variationsOf.mp hu).1⟩)

end Setting

/-! ## Readings -/

/-- The cursor after a number of tokens that were matched. -/
def Cursor.past (c : Cursor) (count : Nat) : Cursor := ⟨c.index + count, c.index + count⟩

theorem Cursor.past_past (c : Cursor) (m n : Nat) : (c.past m).past n = c.past (m + n) := by
  simp only [past, Nat.add_assoc]

@[simp] theorem Atom.accepts_token (kind : String) (t : Token) :
    (Atom.token kind).accepts t = (t.kind == kind) := by
  simp [accepts, token, isRule]

namespace Setting

variable {s : Setting} {call : Caller} {v : Variation} {c c' : Cursor}

/-- What lies behind the tokens ahead. -/
theorem drop_past {tokens front rest : List Token} (h : tokens.drop c.index = front ++ rest) :
    tokens.drop (c.past front.length).index = rest := by
  rw [Cursor.past, ← List.drop_drop, h, List.drop_left]

theorem drop_past_one {tokens rest : List Token} {t : Token} (h : tokens.drop c.index = t :: rest) :
    tokens.drop (c.past 1).index = rest := by
  rw [← List.singleton_append] at h
  exact drop_past h

theorem left_past_lt {t : Token} {rest : List Token} (h : s.tokens.drop c.index = t :: rest)
    {count : Nat} (hpos : 0 < count) : s.left (c.past count) < s.left c := by
  have hlength := congrArg List.length h
  rw [List.length_drop, List.length_cons] at hlength
  simp only [left, Cursor.past]
  omega

theorem getElem?_of_drop {tokens rest : List Token} {t : Token}
    (h : tokens.drop c.index = t :: rest) : tokens[c.index]? = some t := by
  rw [← List.head?_drop, h, List.head?_cons]

theorem matches_token (hv : s.Clear v) {t : Token} {rest : List Token}
    (h : s.tokens.drop c.index = t :: rest) {a : Atom} (ha : a.accepts t = true) :
    s.Matches call v (.atom a) c (captured a t.toValue) (c.past 1) := by
  have hget := getElem?_of_drop h
  have hrule : a.isRule = false := by
    cases hr : a.isRule with
    | false => rfl
    | true => simp [Atom.accepts, hr] at ha
  simp [Matches, matchItem, matchOne, matchAtom, hrule, matchToken_of_clear hv, hget, ha,
    Cursor.past]

theorem fails_token (hv : s.Clear v) {t : Token} {rest : List Token}
    (h : s.tokens.drop c.index = t :: rest) {a : Atom} (hrule : a.isRule = false)
    (ha : a.accepts t = false) : s.Fails call v (.atom a) c c.index c := by
  have hget := getElem?_of_drop h
  simp [Fails, matchItem, matchOne, matchAtom, hrule, matchToken_of_clear hv, hget, ha]

theorem matches_rule {rule : String} {x : Value} (houtcome : (call rule c).outcome = .value x)
    (hcursor : (call rule c).cursor = c') : s.Matches call v (.atom (.rule rule)) c [x] c' := by
  simp [Matches, matchItem, matchOne, matchAtom, Atom.rule, Atom.isRule, captured, houtcome,
    hcursor]

theorem matchAtom_token (kind : String) (c : Cursor) :
    s.matchAtom call v (.token kind) c = s.matchToken v (.token kind) c := rfl

theorem captured_token (kind : String) (x : Value) : captured (.token kind) x = [x] := rfl

/-- A choice between kinds of tokens takes the next token if it has one of them. -/
theorem matches_kinds (hv : s.Clear v) {t : Token} {rest : List Token}
    (h : s.tokens.drop c.index = t :: rest) {kinds : List String} (ht : t.kind ∈ kinds) :
    s.Matches call v (.either ⟨kinds.map .token, none⟩) c [t.toValue] (c.past 1) := by
  have hget := getElem?_of_drop h
  rw [Matches, matchItem]
  induction kinds with
  | nil => cases ht
  | cons kind kinds ih =>
    simp only [List.map_cons, matchEither, matchAtom_token, matchToken_of_clear hv, hget]
    by_cases hkind : t.kind = kind
    · simp [hkind, captured_token, Cursor.past]
    · have hrest := (List.mem_cons.mp ht).resolve_left hkind
      simpa [hkind] using ih hrest

theorem fails_kinds (hv : s.Clear v) {kinds : List String}
    (h : ∀ t ∈ (s.tokens.drop c.index).head?, t.kind ∉ kinds) :
    s.Fails call v (.either ⟨kinds.map .token, none⟩) c c.index c := by
  rw [List.head?_drop] at h
  rw [Fails, matchItem]
  induction kinds with
  | nil => exact ⟨rfl, rfl⟩
  | cons kind kinds ih =>
    have hrest := ih fun t ht hmem => h t ht (List.mem_cons_of_mem _ hmem)
    simp only [List.map_cons, matchEither, matchAtom_token, matchToken_of_clear hv]
    cases hget : s.tokens[c.index]? with
    | none => simpa using hrest
    | some t =>
      have hkind : t.kind ≠ kind := fun heq => h t hget (heq ▸ List.mem_cons_self)
      simpa [hkind] using hrest

theorem Completes.atom {a : Atom} {rest : Content} {data more data' : List Value} {mid : Cursor}
    (head : s.Matches call v (.atom a) c more mid)
    (tail : s.Completes call v rest (data ++ more) mid data' c') :
    s.Completes call v (.atom a :: rest) data c data' c' :=
  .item (Item.Plain.ne_loop trivial) head tail

/-- A variation fails where its first item does. -/
theorem Fails.read_eq {a : Atom} {rest : Content} (hcontent : v.content = .atom a :: rest) {i : Nat}
    (failure : s.Fails call v (.atom a) c i c') : (s.read call v c).outcome = .mismatch i := by
  simp only [read, hcontent, readContent, failure.1]

/-- Behind its first item it fails where the first pass of a loop does. -/
theorem Fails.read_eq_of_loop {a : Atom} {first : Item} {kind : LoopKind} {back rest : Content}
    (hcontent : v.content = .atom a :: .loop kind (first :: back) :: rest)
    {data folded : List Value} {mid : Cursor} (head : s.Matches call v (.atom a) c data mid)
    (hfold : enterPass v kind data = .ok folded) {i : Nat}
    (failure : s.Fails call v first mid i c') : (s.read call v c).outcome = .mismatch i := by
  obtain ⟨hr, rfl⟩ := head
  simp only [read, hcontent, readContent, hr, List.nil_append, Run.outcome_after]
  rw [readLoop, hfold]
  simp [readPass, failure.1, mayEnd]

/-- A variation that can be completed is taken. -/
theorem readChoice_of_completes (hv : s.Clear v) {data : List Value} {x : Value}
    (h : s.Completes call v v.content [] c data c') (hx : v.strategy.adapt data = .ok x)
    (furthest : Nat) (rest : List Variation) :
    (s.readChoice call c furthest (v :: rest)).outcome = .value x ∧
      (s.readChoice call c furthest (v :: rest)).cursor = c' := by
  obtain ⟨houtcome, hcursor⟩ := h.readContent_eq
  simp [readChoice, read, houtcome, hcursor, conclude_eq, settled_of_clear hv, Strategy.outcome, hx]

/-- A variation that fails is passed over. -/
theorem readChoice_cons_of_mismatch {i : Nat} (h : (s.read call v c).outcome = .mismatch i)
    (furthest : Nat) (rest : List Variation) :
    s.readChoice call c furthest (v :: rest) =
      (s.readChoice call c (max furthest i) rest).after (s.read call v c).calls := by
  simp only [readChoice, h]

end Setting

/-! ## Parses -/

namespace Grammar

/-- **Ignore sets and rollback flags are inert on input without trivia**: two built grammars that
differ only in their ignore sets and in the variations that prevent rollback give the same value or
the same error, with all its fields, for every input of which no token is in an ignore set of either
grammar. -/
theorem parseRule_eq_of_sameRules {g h : Grammar} (hg : g.Built) (hh : h.Built)
    (same : g.SameRules h) {tokens : List Token}
    (hleft : ∀ t ∈ tokens, ∀ set ∈ g.ignoreSets, set.has t = false)
    (hright : ∀ t ∈ tokens, ∀ set ∈ h.ignoreSets, set.has t = false) {rule : String}
    (hr : g.has rule = true) (limit : Int) :
    (g.parseRule limit rule tokens).result = (h.parseRule limit rule tokens).result := by
  have hclear : ∀ v ∈ g.variations, Setting.Clear ⟨g, tokens⟩ v :=
    fun v hv t ht => ignores_eq_false hv (hleft t ht)
  have hclear' : ∀ u ∈ h.variations, Setting.Clear ⟨h, tokens⟩ u :=
    fun u hu t ht => ignores_eq_false hu (hright t ht)
  have hruns := (Setting.clearing same hclear hclear').readRule
    (by rintro c _ rule rfl; rfl) (effectiveDepth limit) rule .origin .origin rfl
  rw [← Setting.evaluate_eq_readRule (s := ⟨g, tokens⟩) hg.wellFormed,
    ← Setting.evaluate_eq_readRule (s := ⟨h, tokens⟩) hh.wellFormed] at hruns
  rw [parseRule_result hr, parseRule_result (same.has hr)]
  exact Alignment.conclusion_eq hruns (fun _ _ hexcuse => hexcuse) rule tokens

/-- Lists of sums that treat trivia in another way: comments may stand between the sums, nothing may
stand inside those with operators, and what follows such a sum stays consumed. -/
def strictSums : Grammar :=
  ⟨"list", [.token "COMMENT"], [{ listVariation with preventRollback := false },
    { sumVariation with ignore := some [], preventRollback := true },
    { integerVariation with ignore := some [.token "NL"] }]⟩

theorem strictSums_built : strictSums.Built := by
  refine ⟨[.ignoreGlobally [.item (.atom (.token "COMMENT"))], .startFrom "list"] ++
    Builder.chainSteps 0 "list" (some (listVariation.content.map .item)) none none none false
      (some .pass) ++
    Builder.chainSteps 1 "sum" (some (sumVariation.content.map .item)) none none (some []) true
      (some (.select 0)) ++
    Builder.chainSteps 2 "sum" (some (integerVariation.content.map .item)) none none
      (some [.item (.atom (.token "NL"))]) false (some .pass), ?_⟩
  rfl

/-- A sum and an integer, and a separator with nothing behind it. -/
def cleanList : List Token :=
  [.bare "INT", .bare "ADD", .bare "INT", .bare "SEMI", .bare "INT", .bare "SEMI"]

/-- The block loop ends in the middle of its second pass, with both grammars. -/
theorem parseRule_eq_of_sameRules_sums :
    sums.Built ∧ strictSums.Built ∧ sums.SameRules strictSums ∧
      (∀ t ∈ cleanList, ∀ set ∈ sums.ignoreSets, set.has t = false) ∧
      (∀ t ∈ cleanList, ∀ set ∈ strictSums.ignoreSets, set.has t = false) ∧
      sums.has "list" = true ∧
      (sums.parseRule 9 "list" cleanList).result = .ok (.token "INT" .null) ∧
      (strictSums.parseRule 9 "list" cleanList).result = .ok (.token "INT" .null) := by
  have same : sums.SameRules strictSums := .of_variations rfl
  have hleft : ∀ t ∈ cleanList, ∀ set ∈ sums.ignoreSets, set.has t = false := by decide
  have hright : ∀ t ∈ cleanList, ∀ set ∈ strictSums.ignoreSets, set.has t = false := by decide
  have hr : sums.has "list" = true := rfl
  have hvalue : (sums.parseRule 9 "list" cleanList).result = .ok (.token "INT" .null) := rfl
  have heq := parseRule_eq_of_sameRules sums_built strictSums_built same hleft hright hr 9
  exact ⟨sums_built, strictSums_built, same, hleft, hright, hr, hvalue, heq ▸ hvalue⟩

end Grammar
end TokenGrammar
