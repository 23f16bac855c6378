import TokenGrammar.Proofs.Discipline

/-!
# Recognition does not depend on tree building

What is captured and what the strategies make of it has no part in deciding what an input is. Two
grammars that differ in nothing else run side by side on the same cursors, one fold of a binary loop
against the other, until a strategy refuses in one of them; and as long as none does, they accept
the same inputs and report the same errors.

A refusal ends the parse, however deep it occurs and whatever alternatives are left. So a parse that
ends in another way has called no strategy that refused.

## Main definitions

* `Variation.bare`: a variation without what only matters for its value.
* `Grammar.Alike`: grammars that differ in nothing else.
-/
namespace TokenGrammar

/-! ## Bare grammars -/

/-- The atom as a test, whether or not its match is captured. -/
def Atom.bare (a : Atom) : Atom := { a with skip := false }

@[simp] theorem Atom.isRule_bare (a : Atom) : a.bare.isRule = a.isRule := rfl

@[simp] theorem Atom.name_bare (a : Atom) : a.bare.name = a.name := rfl

@[simp] theorem Atom.accepts_bare (a : Atom) (x : Token) : a.bare.accepts x = a.accepts x := rfl

mutual

/-- The item with its atoms as tests. -/
def Item.bare : Item → Item
  | .atom a => .atom a.bare
  | .either e => .either ⟨e.candidates.map Atom.bare, none⟩
  | .loop kind body => .loop kind (Item.bareAll body)
  | .foreign type text => .foreign type text

/-- Several items with their atoms as tests. -/
def Item.bareAll : List Item → List Item
  | [] => []
  | i :: is => i.bare :: Item.bareAll is

end

/-- The variation as a test: nothing is said about what it captures and what value it makes. -/
def Variation.bare (v : Variation) : Variation :=
  { v with content := Item.bareAll v.content, strategy := .pass }

@[simp] theorem Variation.ignore_bare (v : Variation) : v.bare.ignore = v.ignore := rfl

@[simp] theorem Variation.preventRollback_bare (v : Variation) :
    v.bare.preventRollback = v.preventRollback := rfl

/-- Grammars with the same ignore set and, for every rule, the same variations in the same order, up
to what only matters for their values. -/
structure Grammar.Alike (g h : Grammar) : Prop where
  ignore : g.ignore = h.ignore
  rules : ∀ rule,
    (g.variationsOf rule).map Variation.bare = (h.variationsOf rule).map Variation.bare

/-- Only the order of the variations within a rule matters, but the same order overall is enough. -/
theorem Grammar.Alike.of_variations {g h : Grammar} (hignore : g.ignore = h.ignore)
    (hmap : g.variations.map Variation.bare = h.variations.map Variation.bare) : g.Alike h where
  ignore := hignore
  rules rule := by
    have hfilter := congrArg (List.filter fun v => v.rule == rule) hmap
    rw [List.filter_map, List.filter_map] at hfilter
    exact hfilter

theorem Grammar.Alike.has {g h : Grammar} (same : g.Alike h) {rule : String}
    (hr : g.has rule = true) : h.has rule = true := by
  rw [has_iff] at hr ⊢
  intro hnil
  have hrules := same.rules rule
  rw [hnil, List.map_nil, List.map_eq_nil_iff] at hrules
  exact hr hrules

/-- Lists with equal images are related element by element. -/
theorem forall₂_of_map_eq {α β : Type} {f : α → β} {xs ys : List α} (h : xs.map f = ys.map f) :
    List.Forall₂ (fun x y => f x = f y) xs ys := by
  rw [← List.forall₂_eq_eq_eq, List.forall₂_map_left_iff, List.forall₂_map_right_iff] at h
  exact h

/-! ## The simulation -/

/-- Cursors and faults are the same on both sides, values may be any. A refusal of a strategy
excuses the other side. -/
def recognition : Alignment where
  cursors := Eq
  indices := Eq
  values _ _ := True
  data _ _ := True
  atoms a b := a.bare = b.bare
  variations v u := v.bare = u.bare
  faults := Eq
  excusesLeft f := ∃ e, f = .adapt e
  excusesRight f := ∃ e, f = .adapt e

mutual

theorem items_of_bare : (i j : Item) → i.bare = j.bare → recognition.Items i j
  | .atom _, .atom _, h => .atom (Item.atom.inj h)
  | .either _, .either _, h =>
    .either (forall₂_of_map_eq (congrArg Either.candidates (Item.either.inj h)))
  | .loop _ body, .loop _ body', h => by
    obtain ⟨rfl, hbody⟩ := Item.loop.inj h
    exact .loop (items_of_bareAll body body' hbody)
  | .foreign _ _, .foreign _ _, h => by
    obtain ⟨rfl, rfl⟩ := Item.foreign.inj h
    exact .foreign
  | .atom _, .either _, h | .atom _, .loop _ _, h | .atom _, .foreign _ _, h | .either _, .atom _, h
  | .either _, .loop _ _, h | .either _, .foreign _ _, h | .loop _ _, .atom _, h
  | .loop _ _, .either _, h | .loop _ _, .foreign _ _, h | .foreign _ _, .atom _, h
  | .foreign _ _, .either _, h | .foreign _ _, .loop _ _, h => nomatch h

theorem items_of_bareAll : (xs ys : Content) → Item.bareAll xs = Item.bareAll ys →
    List.Forall₂ recognition.Items xs ys
  | [], [], _ => .nil
  | x :: xs, y :: ys, h =>
    .cons (items_of_bare x y (List.cons.inj h).1) (items_of_bareAll xs ys (List.cons.inj h).2)
  | [], _ :: _, h | _ :: _, [], h => nomatch h

end

namespace Setting

variable {g h : Grammar} {tokens : List Token} {v u : Variation}

/-- The same tokens are trivia. -/
theorem ignored_congr (same : g.Alike h) (hv : v.bare = u.bare) :
    ignored ⟨g, tokens⟩ v = ignored ⟨h, tokens⟩ u := by
  have hignore : v.ignore = u.ignore := by simpa using congrArg Variation.ignore hv
  funext x
  simp only [ignored, Grammar.ignores, Grammar.ignoreSetFor, hignore, same.ignore]

theorem giveBack_congr (same : g.Alike h) (hv : v.bare = u.bare) (floor i : Nat) :
    giveBack ⟨g, tokens⟩ v floor i = giveBack ⟨h, tokens⟩ u floor i := by
  have hat : ∀ i, ignoredAt ⟨g, tokens⟩ v i = ignoredAt ⟨h, tokens⟩ u i := by
    intro i
    rw [ignoredAt, ignoredAt, ignored_congr same hv]
  induction i with
  | zero => rfl
  | succ i ih => simp only [giveBack, hat, ih]

theorem settled_congr (same : g.Alike h) (hv : v.bare = u.bare) (start stop : Cursor) :
    settled ⟨g, tokens⟩ v start stop = settled ⟨h, tokens⟩ u start stop := by
  have hkeeps : v.preventRollback = u.preventRollback := by
    simpa using congrArg Variation.preventRollback hv
  simp only [settled, rollback, giveBack_congr same hv, hkeeps]

/-- Token atoms with the same test behave in the same way. -/
theorem recognition_matchToken (same : g.Alike h) (hv : v.bare = u.bare) {a b : Atom}
    (hab : a.bare = b.bare) (c : Cursor) :
    recognition.Runs recognition.values (matchToken ⟨g, tokens⟩ v a c)
      (matchToken ⟨h, tokens⟩ u b c) := by
  have haccepts : ∀ x, a.accepts x = b.accepts x := by
    intro x
    rw [← a.accepts_bare, hab, b.accepts_bare]
  simp only [matchToken, skipTrivia, ignored_congr same hv]
  split
  · simp only [haccepts]
    split
    · exact .value trivial rfl
    · exact .mismatch rfl trivial rfl
  · exact .mismatch rfl trivial rfl

/-- Strategies may give any values, and one that refuses excuses the other side. -/
theorem recognition_outcome (f f' : Strategy) (xs ys : List Value) (c : Cursor) :
    recognition.Runs recognition.values ⟨f.outcome xs, c, []⟩ ⟨f'.outcome ys, c, []⟩ := by
  rw [Strategy.outcome, Strategy.outcome]
  cases f.adapt xs with
  | error e => exact .left ⟨e, rfl⟩
  | ok x =>
    cases f'.adapt ys with
    | error e => exact .right ⟨e, rfl⟩
    | ok y => exact .value trivial rfl

/-- Evaluations with grammars that are alike run side by side. -/
def recognizing (same : g.Alike h) (tokens : List Token) :
    Simulation ⟨g, tokens⟩ ⟨h, tokens⟩ where
  toAlignment := recognition
  index_of_cursor hc := congrArg Cursor.index hc
  index_max hi hj := congrArg₂ max hi hj
  data_nil := trivial
  data_append _ _ := trivial
  data_single _ := trivial
  data_captured _ _ := trivial
  atom_isRule hab := by simpa using congrArg Atom.isRule hab
  atom_name hab _ := by simpa using congrArg Atom.name hab
  content hv := items_of_bareAll _ _ (congrArg Variation.content hv)
  token := by
    rintro v u a b c _ hv hab _ rfl
    exact recognition_matchToken same hv hab c
  adapt := by
    rintro v u xs ys c _ _ _ rfl
    exact recognition_outcome v.strategy u.strategy xs ys c
  settle := by
    rintro v u start _ stop _ hv rfl rfl _ _
    exact settled_congr same hv start stop
  progress := by
    rintro c _ c' _ rfl rfl _ _
    exact Iff.rfl
  rules rule := forall₂_of_map_eq (same.rules rule)
  undefined _ := rfl
  inconceivable := rfl

theorem recognition_evaluate (hg : g.WellFormed) (hh : h.WellFormed)
    (same : g.Alike h) (tokens : List Token) (depth : Nat) (rule : String) (c : Cursor) :
    recognition.Runs recognition.values (evaluate ⟨g, tokens⟩ depth rule c)
      (evaluate ⟨h, tokens⟩ depth rule c) := by
  rw [evaluate_eq_readRule (s := ⟨g, tokens⟩) hg, evaluate_eq_readRule (s := ⟨h, tokens⟩) hh]
  refine (recognizing same tokens).readRule ?_ depth rule c c rfl
  rintro c _ rule rfl
  rfl

/-- A strategy that refuses ends the evaluation with its error. -/
theorem fatal_of_adapt_mem_notes {s : Setting} (hg : s.grammar.WellFormed) {depth : Nat}
    {rule : String} {strategy : Strategy} {data : List Value} {e : AdaptError}
    (hn : Note.adapt strategy data ∈ (s.evaluateNoted depth rule .origin).notes)
    (he : strategy.adapt data = .error e) :
    (s.evaluateNoted depth rule .origin).outcome = .fatal (.adapt e) := by
  have hraised := (vouched_origin hg depth rule _ hn).2 e he
  generalize (s.evaluateNoted depth rule .origin).outcome = outcome at hraised ⊢
  cases outcome with
  | fatal f => exact congrArg Outcome.fatal (Option.some.inj hraised)
  | value x => cases hraised
  | mismatch i => cases hraised

end Setting

/-! ## Parses -/

namespace Grammar

variable {g h : Grammar}

/-- Parses that end in the same way, up to values. -/
inductive SameVerdict : Except Fault Value → Except Fault Value → Prop
  | value (x y : Value) : SameVerdict (.ok x) (.ok y)
  | error {e e' : ParseError} (kind : e.kind = e'.kind) (rule : e.rule = e'.rule)
      (index : e.index = e'.index) (token : e.token = e'.token) :
      SameVerdict (.error (.parse e)) (.error (.parse e'))
  | inconceivable : SameVerdict (.error .inconceivable) (.error .inconceivable)

/-- Runs side by side lead to the same verdict, if they end for no other reason than the input. -/
theorem sameVerdict_conclusion {rule : String} {tokens : List Token} {r r' : Run Value}
    (hruns : recognition.Runs recognition.values r r')
    (hconfig : ∀ e, conclusion rule tokens r ≠ .error (.config e))
    (hleft : ∀ e, conclusion rule tokens r ≠ .error (.adapt e))
    (hright : ∀ e, conclusion rule tokens r' ≠ .error (.adapt e)) :
    SameVerdict (conclusion rule tokens r) (conclusion rule tokens r') := by
  obtain ⟨o, stop, calls⟩ := r
  obtain ⟨o', stop', calls'⟩ := r'
  simp only [Alignment.Runs] at hruns
  cases hruns with
  | @value x y _ _ _ hstop =>
    cases hstop
    simp only [conclusion]
    split
    · exact .error rfl rfl rfl rfl
    · exact .value x y
  | mismatch hi _ _ =>
    cases hi
    exact .error rfl rfl rfl rfl
  | @fatal f _ _ _ hf =>
    cases hf
    cases f with
    | parse e => exact .error rfl rfl rfl rfl
    | inconceivable => exact .inconceivable
    | adapt e => exact absurd rfl (hleft e)
    | config e => exact absurd rfl (hconfig e)
  | left hexcuse =>
    obtain ⟨e, rfl⟩ := hexcuse
    exact absurd rfl (hleft e)
  | right hexcuse =>
    obtain ⟨e, rfl⟩ := hexcuse
    exact absurd rfl (hright e)

/-- **Recognition does not depend on tree building**: two built grammars that differ only in what
their atoms capture and in their strategies give the same verdict, a value or the same error, unless
a strategy refuses in one of them. And no refusal is passed over: a parse that does not end in one
has called no strategy that refused. -/
theorem parseRule_sameVerdict (hg : g.Built) (hh : h.Built) (same : g.Alike h) {rule : String}
    (hr : g.has rule = true) (limit : Int) (tokens : List Token) :
    ((∀ e, (g.parseRule limit rule tokens).result ≠ .error (.adapt e)) →
      (∀ e, (h.parseRule limit rule tokens).result ≠ .error (.adapt e)) →
      SameVerdict (g.parseRule limit rule tokens).result (h.parseRule limit rule tokens).result) ∧
    ((∀ e, (g.parseRule limit rule tokens).result ≠ .error (.adapt e)) →
      let r := Setting.evaluateNoted ⟨g, tokens⟩ (effectiveDepth limit) rule .origin
      r.toRun = Setting.evaluate ⟨g, tokens⟩ (effectiveDepth limit) rule .origin ∧
        ∀ strategy data, Note.adapt strategy data ∈ r.notes →
          ∃ x, strategy.adapt data = .ok x) := by
  refine ⟨fun hleft hright => ?_, fun hleft => ⟨Setting.toRun_evaluateNoted _ _ _ _, ?_⟩⟩
  · have hruns := Setting.recognition_evaluate hg.wellFormed hh.wellFormed same tokens
      (effectiveDepth limit) rule .origin
    have hconfig := (endsIn_parseRule hg hr limit tokens).ne_config
    rw [parseRule_result hr] at hconfig hleft ⊢
    rw [parseRule_result (same.has hr)] at hright ⊢
    exact sameVerdict_conclusion hruns hconfig hleft hright
  · intro strategy data hn
    cases ha : strategy.adapt data with
    | ok x => exact ⟨x, rfl⟩
    | error e =>
      have hfatal := Setting.fatal_of_adapt_mem_notes (s := ⟨g, tokens⟩) hg.wellFormed hn ha
      rw [Setting.toRun_evaluateNoted] at hfatal
      refine absurd ?_ (hleft e)
      rw [parseRule_result hr, conclusion, hfatal]

/-- Lists of sums that are only recognized: nothing is captured, and every value is null. -/
def silentSums : Grammar :=
  ⟨"list", [.token "NL"],
    [⟨"list", [.atom (Atom.rule "sum").skipped,
        .loop .block [.atom (Atom.token "SEMI").skipped, .atom (Atom.rule "sum").skipped]],
      .pass, none, true⟩,
    ⟨"sum", [.atom (Atom.token "INT").skipped,
        .loop .binary [.either ⟨[(Atom.token "ADD").skipped, .token "SUB"], none⟩,
          .atom (Atom.token "INT").skipped]],
      .pass, none, false⟩,
    ⟨"sum", [.atom (Atom.token "INT").skipped], .pass, none, false⟩]⟩

theorem silentSums_built : silentSums.Built := by
  refine ⟨[.ignoreGlobally [.item (.atom (.token "NL"))], .startFrom "list"] ++
    (silentSums.variations.zipIdx.flatMap fun (v, number) => variationSteps number v), ?_⟩
  rfl

/-- The second operator has no operand, so both parses stop before the first; only the values of the
accepted front differ. The variation that was given up had folded the first sum. -/
theorem parseRule_sameVerdict_sums :
    sums.Built ∧ silentSums.Built ∧ sums.Alike silentSums ∧ sums.has "sum" = true ∧
      (∀ e, (sums.parseRule 9 "sum" unfinishedSum).result ≠ .error (.adapt e)) ∧
      (∀ e, (silentSums.parseRule 9 "sum" unfinishedSum).result ≠ .error (.adapt e)) ∧
      SameVerdict (sums.parseRule 9 "sum" unfinishedSum).result
        (silentSums.parseRule 9 "sum" unfinishedSum).result ∧
      ∃ x, (Strategy.select 0).adapt
        [.token "INT" .null, .token "ADD" .null, .token "INT" .null] = .ok x := by
  have same : sums.Alike silentSums := .of_variations rfl rfl
  have hr : sums.has "sum" = true := rfl
  have hleft : ∀ e, (sums.parseRule 9 "sum" unfinishedSum).result ≠ .error (.adapt e) := by
    rintro e ⟨⟩
  have hright : ∀ e, (silentSums.parseRule 9 "sum" unfinishedSum).result ≠ .error (.adapt e) := by
    rintro e ⟨⟩
  have hfold : Note.adapt (.select 0) [.token "INT" .null, .token "ADD" .null, .token "INT" .null] ∈
      (Setting.evaluateNoted ⟨sums, unfinishedSum⟩ (effectiveDepth 9) "sum" .origin).notes :=
    List.mem_of_getElem? (i := 11) rfl
  obtain ⟨hverdict, hadapted⟩ :=
    parseRule_sameVerdict sums_built silentSums_built same hr 9 unfinishedSum
  exact ⟨sums_built, silentSums_built, same, hr, hleft, hright, hverdict hleft hright,
    (hadapted hleft).2 _ _ hfold⟩

end Grammar
end TokenGrammar
