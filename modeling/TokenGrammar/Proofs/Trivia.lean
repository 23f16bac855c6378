import Mathlib.Order.MinMax
import TokenGrammar.Proofs.Safety
import TokenGrammar.Proofs.Simulation

/-!
# Trivia is transparent

Where no variation has an ignore set of its own, trivia can as well be removed before the parse. The
evaluation of the full input and that of the sifted one run side by side: at every moment the cursor
of the second is the number of tokens before the cursor of the first that are not trivia. Trivia
that is skipped or given back does not change that number, and every token that is matched does, so
the two loops find the same passes idle.

## Main definitions

* `Grammar.sift`: the tokens that are not trivia.
* `Grammar.rank`: the place of an index in the sifted input.
* `Setting.Aligned`: cursors at the same place of the two inputs.
* `Setting.sifting`: the simulation of the full input by the sifted one.
* `Grammar.SameEnd`: how parses of the two inputs end together.
-/
namespace TokenGrammar

namespace Grammar

variable {g : Grammar} {tokens : List Token} {i j : Nat} {t : Token}

/-! ## Sifted input -/

/-- The tokens that are not trivia. -/
def sift (g : Grammar) (tokens : List Token) : List Token :=
  tokens.filter fun t => !g.ignores none t

/-- The number of tokens before an index that are not trivia. -/
def rank (g : Grammar) (tokens : List Token) (i : Nat) : Nat := (g.sift (tokens.take i)).length

theorem not_ignored_of_mem_sift (h : t ∈ g.sift tokens) : g.ignores none t = false := by
  simpa using (List.mem_filter.mp h).2

theorem sift_eq_nil_iff : g.sift tokens = [] ↔ ∀ t ∈ tokens, g.ignores none t = true := by
  simp [sift]

theorem rank_succ (h : tokens[i]? = some t) (hkept : g.ignores none t = false) :
    g.rank tokens (i + 1) = g.rank tokens i + 1 := by
  simp [rank, sift, List.take_add_one, h, hkept]

theorem rank_succ_of_ignored (h : tokens[i]? = some t) (hignored : g.ignores none t = true) :
    g.rank tokens (i + 1) = g.rank tokens i := by
  simp [rank, sift, List.take_add_one, h, hignored]

theorem rank_mono (h : i ≤ j) : g.rank tokens i ≤ g.rank tokens j :=
  ((List.take_sublist_take_left h).filter _).length_le

theorem rank_max : g.rank tokens (max i j) = max (g.rank tokens i) (g.rank tokens j) :=
  Monotone.map_max fun _ _ => rank_mono

/-- What follows an index is sifted to what follows its rank. -/
theorem drop_sift (g : Grammar) (tokens : List Token) (i : Nat) :
    (g.sift tokens).drop (g.rank tokens i) = g.sift (tokens.drop i) := by
  have hsplit : g.sift tokens = g.sift (tokens.take i) ++ g.sift (tokens.drop i) := by
    rw [sift, sift, sift, ← List.filter_append, List.take_append_drop]
  rw [hsplit, rank, List.drop_left]

theorem rank_lt_length_iff :
    g.rank tokens i < (g.sift tokens).length ↔ g.sift (tokens.drop i) ≠ [] := by
  rw [← drop_sift, Ne, List.drop_eq_nil_iff, Nat.not_le]

/-- The token at an index that does not hold trivia is the one at its rank. -/
theorem getElem?_sift (h : ∀ t, tokens[i]? = some t → g.ignores none t = false) :
    (g.sift tokens)[g.rank tokens i]? = tokens[i]? := by
  rw [← List.head?_drop, drop_sift, ← List.head?_drop]
  cases hd : tokens.drop i with
  | nil => rfl
  | cons t rest =>
    have hkept := h t (by rw [← List.head?_drop, hd, List.head?_cons])
    simp [sift, hkept]

end Grammar

namespace Setting

variable {s : Setting} {v : Variation} {c c' d d' : Cursor}

/-- The evaluation of the same grammar on the sifted input. -/
def sifted (s : Setting) : Setting := ⟨s.grammar, s.grammar.sift s.tokens⟩

/-- The place of an index in the sifted input. -/
def rank (s : Setting) (i : Nat) : Nat := s.grammar.rank s.tokens i

theorem ignored_eq (hv : v.ignore = none) : s.ignored v = s.grammar.ignores none := by
  funext t
  simp [ignored, Grammar.ignores, Grammar.ignoreSetFor, hv]

theorem sifted_not_ignored (hv : v.ignore = none) :
    ∀ t ∈ s.sifted.tokens, s.sifted.ignored v t = false := by
  intro t ht
  rw [ignored_eq hv]
  exact Grammar.not_ignored_of_mem_sift ht

theorem ignores_of_ignoredAt (hv : v.ignore = none) {k : Nat} (h : s.ignoredAt v k = true) :
    ∃ t, s.tokens[k]? = some t ∧ s.grammar.ignores none t = true := by
  rw [ignoredAt, ignored_eq hv] at h
  split at h
  · next t ht => exact ⟨t, ht, h⟩
  · cases h

theorem ignores_eq_false_of_skipTrivia (hv : v.ignore = none) {i : Nat} {t : Token}
    (h : s.tokens[s.skipTrivia v i]? = some t) : s.grammar.ignores none t = false := by
  rw [← ignored_eq hv]
  exact ignored_eq_false_of_skipTrivia h

/-- A stretch of trivia has one rank. -/
theorem rank_eq_of_trivia (hv : v.ignore = none) {i j : Nat} (hij : i ≤ j)
    (h : ∀ k, i ≤ k → k < j → s.ignoredAt v k = true) : s.rank j = s.rank i := by
  induction hij with
  | refl => rfl
  | @step j hij ih =>
    obtain ⟨t, ht, hignored⟩ := ignores_of_ignoredAt hv (h j hij (Nat.lt_succ_self j))
    rw [← ih fun k hk hlt => h k hk (Nat.lt_succ_of_lt hlt)]
    exact Grammar.rank_succ_of_ignored ht hignored

/-! ## Aligned cursors -/

/-- A cursor of the full input and one of the sifted input at the same place. The last token that
the first one matched is not trivia. -/
structure Aligned (s : Setting) (c d : Cursor) : Prop where
  inside : c.index ≤ s.tokens.length
  index : d.index = s.rank c.index
  kept : ∀ k, c.matched = k + 1 → ∃ t, s.tokens[k]? = some t ∧ s.grammar.ignores none t = false

theorem aligned_origin (s : Setting) : s.Aligned .origin .origin :=
  ⟨Nat.zero_le _, rfl, fun _ h => by cases h⟩

/-- Trivia does not count. -/
theorem Aligned.of_trivia (h : s.Aligned c d) (hmatched : c'.matched = c.matched)
    (hinside : c'.index ≤ s.tokens.length) (hrank : s.rank c'.index = s.rank c.index)
    (hindex : d'.index = d.index) : s.Aligned c' d' :=
  ⟨hinside, by rw [hindex, h.index, hrank], hmatched ▸ h.kept⟩

theorem Aligned.skip (hv : v.ignore = none) (h : s.Aligned c d) :
    s.Aligned ⟨s.skipTrivia v c.index, c.matched⟩ d := by
  have hle := s.skipTrivia_le v c.index
  rw [Nat.max_eq_right h.inside] at hle
  refine h.of_trivia rfl hle ?_ rfl
  exact rank_eq_of_trivia hv (s.le_skipTrivia v c.index) fun _ hk hlt =>
    ignoredAt_of_lt_skipTrivia hk hlt

theorem Aligned.rollback (hv : v.ignore = none) (h : s.Aligned c d) (start : Nat) :
    s.Aligned (s.rollback v start c) d := by
  have hle := s.giveBack_le v (max start c.matched) c.index
  refine h.of_trivia rfl (Nat.le_trans hle h.inside) ?_ rfl
  exact (rank_eq_of_trivia hv hle fun _ hk hlt => ignoredAt_of_giveBack_le hk hlt).symm

/-- Progress in the full input is progress in the sifted one: the token that was matched counts. -/
theorem Aligned.progress (h : s.Aligned c d) (h' : s.Aligned c' d') (ha : s.Advances c c') :
    c'.index = c.index ↔ d'.index = d.index := by
  rw [h.index, h'.index]
  refine ⟨fun heq => by rw [heq], ?_⟩
  cases ha with
  | stay => exact fun _ => rfl
  | matched after ordered inside =>
    intro heq
    obtain ⟨k, hk⟩ : ∃ k, c'.matched = k + 1 := ⟨c'.matched - 1, by omega⟩
    obtain ⟨t, ht, hkept⟩ := h'.kept k hk
    have hbefore : s.rank c.index ≤ s.rank k := Grammar.rank_mono (by omega)
    have hstep : s.rank (k + 1) = s.rank k + 1 := Grammar.rank_succ ht hkept
    have hafter : s.rank (k + 1) ≤ s.rank c'.index := Grammar.rank_mono (by omega)
    omega

/-- The token after skipped trivia is the token at the aligned cursor. -/
theorem Aligned.getElem? (hv : v.ignore = none) (h : s.Aligned c d) :
    s.sifted.tokens[d.index]? = s.tokens[s.skipTrivia v c.index]? := by
  rw [(h.skip hv).index]
  exact Grammar.getElem?_sift fun t ht => ignores_eq_false_of_skipTrivia hv ht

/-! ## The simulation -/

/-- A fault of the full input and the same fault of the sifted input. -/
inductive SameFault (s : Setting) : Fault → Fault → Prop
  | depth {c d : Cursor} (rule : String) (h : s.Aligned c d) :
      SameFault s (.parse (.atIndex .depthExceeded rule s.tokens c.index))
        (.parse (.atIndex .depthExceeded rule s.sifted.tokens d.index))
  | adapt (e : AdaptError) : SameFault s (.adapt e) (.adapt e)
  | config (e : ConfigError) : SameFault s (.config e) (.config e)
  | inconceivable : SameFault s .inconceivable .inconceivable

variable (s) in
/-- Everything but the cursors is the same on both sides. -/
def siftAlignment : Alignment where
  cursors := s.Aligned
  indices i j := j = s.rank i
  values := Eq
  data := Eq
  atoms := Eq
  variations v u := v = u ∧ v.ignore = none
  faults := s.SameFault
  excusesLeft _ := False
  excusesRight _ := False

theorem runs_matchToken {v : Variation} (hv : v.ignore = none) (a : Atom) {c d : Cursor}
    (h : s.Aligned c d) :
    s.siftAlignment.Runs Eq (s.matchToken v a c) (s.sifted.matchToken v a d) := by
  have hskip := h.skip hv
  have hmiss : s.siftAlignment.Runs (α := Value) (β := Value) Eq
      ⟨.mismatch (s.skipTrivia v c.index), ⟨s.skipTrivia v c.index, c.matched⟩, []⟩
      ⟨.mismatch d.index, ⟨d.index, d.matched⟩, []⟩ := .mismatch hskip.index trivial hskip
  simp only [matchToken, skipTrivia_eq_self (sifted_not_ignored hv), h.getElem? hv]
  cases ht : s.tokens[s.skipTrivia v c.index]? with
  | none => exact hmiss
  | some t =>
    dsimp only
    split
    · have hkept := ignores_eq_false_of_skipTrivia hv ht
      have hinside := (List.getElem?_eq_some_iff.mp ht).1
      have hrank : s.rank (s.skipTrivia v c.index + 1) = s.rank (s.skipTrivia v c.index) + 1 :=
        Grammar.rank_succ ht hkept
      refine .value rfl ⟨hinside, ?_, ?_⟩
      · rw [hrank, ← hskip.index]
      · rintro k hk
        obtain rfl : s.skipTrivia v c.index = k := by simpa using hk
        exact ⟨t, ht, hkept⟩
    · exact hmiss

/-- The sifted input simulates the full one, for grammars without ignore sets of their own in the
variations. -/
def sifting (hno : ∀ v ∈ s.grammar.variations, v.ignore = none) : Simulation s s.sifted where
  toAlignment := s.siftAlignment
  index_of_cursor h := h.index
  index_max := by
    rintro i _ i' _ rfl rfl
    exact Grammar.rank_max.symm
  data_nil := rfl
  data_append := by
    rintro xs _ xs' _ rfl rfl
    rfl
  data_single := by
    rintro x _ rfl
    rfl
  data_captured := by
    rintro a _ x _ rfl rfl
    rfl
  atom_isRule h := congrArg Atom.isRule h
  atom_name h _ := congrArg Atom.name h
  content := by
    rintro v _ ⟨rfl, _⟩
    exact Alignment.Items.refl_all (fun _ => rfl) v.content
  token := by
    rintro v _ a _ c d ⟨rfl, hv⟩ rfl _ hc
    exact runs_matchToken hv a hc
  adapt := by
    rintro v _ xs _ c d ⟨rfl, _⟩ rfl hc
    rw [Strategy.outcome]
    cases v.strategy.adapt xs with
    | ok x => exact .value rfl hc
    | error e => exact .fatal (.adapt e)
  settle := by
    rintro v _ start start' stop stop' ⟨rfl, hv⟩ _ hstop _ _
    have hid : s.sifted.settled v start' stop' = stop' := by
      rw [settled, Setting.rollback, giveBack_eq_self (sifted_not_ignored hv)]
      exact ite_self stop'
    rw [hid, settled]
    split
    · exact hstop
    · exact hstop.rollback hv start.index
  progress hc hstop ha _ := hc.progress hstop ha
  rules rule := by
    refine List.forall₂_same.mpr fun v hv => ⟨rfl, hno v ?_⟩
    exact (Grammar.mem_variationsOf.mp hv).1
  undefined rule := .config _
  inconceivable := .inconceivable

/-- The evaluations of a rule on the two inputs agree. -/
theorem runs_evaluate (hg : s.grammar.WellFormed)
    (hno : ∀ v ∈ s.grammar.variations, v.ignore = none) (depth : Nat) (rule : String) :
    s.siftAlignment.Runs Eq (s.evaluate depth rule .origin)
      (s.sifted.evaluate depth rule .origin) := by
  rw [evaluate_eq_readRule hg, evaluate_eq_readRule (s := s.sifted) hg]
  refine (sifting hno).readRule ?_ depth rule .origin .origin s.aligned_origin
  intro c d rule hc
  exact .depth rule hc

end Setting

/-! ## Parses -/

namespace Grammar

variable {g : Grammar} {rule : String} {tokens : List Token}

/-- How parses of the full and of the sifted input end together: the one may be left with trivia
where the other is at its end. -/
inductive SameEnd (g : Grammar) (tokens : List Token) :
    Except Fault Value → Except Fault Value → Prop
  | value (x : Value) : SameEnd g tokens (.ok x) (.ok x)
  | trivia {e : ParseError} (kind : e.kind = .trailingInput)
      (rest : ∀ t ∈ tokens.drop e.index, g.ignores none t = true) :
      SameEnd g tokens (.error (.parse e)) (.ok e.result)
  | error {e e' : ParseError} (kind : e.kind = e'.kind) (rule : e.rule = e'.rule)
      (index : g.rank tokens e.index = e'.index) (result : e.result = e'.result)
      (rest : e.kind = .trailingInput → ¬ ∀ t ∈ tokens.drop e.index, g.ignores none t = true) :
      SameEnd g tokens (.error (.parse e)) (.error (.parse e'))
  | adapt (e : AdaptError) : SameEnd g tokens (.error (.adapt e)) (.error (.adapt e))
  | foreign (held : g.HoldsForeign) : SameEnd g tokens (.error .inconceivable) (.error .inconceivable)

/-- A success ends the parse of the sifted input exactly if nothing but trivia is left of the full
one. -/
theorem sameEnd_of_value {r r' : Run Value} {x : Value} (hr : r.outcome = .value x)
    (hr' : r'.outcome = .value x) (h : Setting.Aligned ⟨g, tokens⟩ r.cursor r'.cursor) :
    g.SameEnd tokens (conclusion rule tokens r) (conclusion rule (g.sift tokens) r') := by
  have hindex : g.rank tokens r.cursor.index = r'.cursor.index := h.index.symm
  have hleft : g.rank tokens r.cursor.index < (g.sift tokens).length ↔
      g.sift (tokens.drop r.cursor.index) ≠ [] := rank_lt_length_iff
  rw [hindex, Ne, sift_eq_nil_iff] at hleft
  simp only [conclusion, hr, hr']
  by_cases hrest : ∀ t ∈ tokens.drop r.cursor.index, g.ignores none t = true
  · rw [if_neg fun hlt => hleft.mp hlt hrest]
    split
    · exact .trivia rfl hrest
    · exact .value x
  · have hlt : r.cursor.index < tokens.length := by
      by_contra hge
      refine hrest fun t ht => ?_
      rw [List.drop_of_length_le (Nat.le_of_not_lt hge)] at ht
      cases ht
    rw [if_pos hlt, if_pos (hleft.mpr hrest)]
    exact .error rfl rfl hindex rfl fun _ => hrest

theorem sameEnd_parseRule (hg : g.Built) (hno : ∀ v ∈ g.variations, v.ignore = none)
    (hr : g.has rule = true) (limit : Int) (tokens : List Token) :
    g.SameEnd tokens (g.parseRule limit rule tokens).result
      (g.parseRule limit rule (g.sift tokens)).result := by
  have hruns := Setting.runs_evaluate (s := ⟨g, tokens⟩) hg.wellFormed hno (effectiveDepth limit)
    rule
  have hends := endsIn_parseRule hg hr limit tokens
  have hconfig := hends.ne_config
  have hforeign := hends.holdsForeign
  rw [parseRule_result hr] at hconfig hforeign ⊢
  rw [parseRule_result hr]
  simp only [Setting.sifted, Alignment.Runs] at hruns
  generalize Setting.evaluate ⟨g, tokens⟩ (effectiveDepth limit) rule .origin = r
    at hruns hconfig hforeign ⊢
  generalize Setting.evaluate ⟨g, g.sift tokens⟩ (effectiveDepth limit) rule .origin = r' at hruns ⊢
  obtain ⟨o, stop, calls⟩ := r
  obtain ⟨o', stop', calls'⟩ := r'
  cases hruns with
  | value h hstop =>
    cases h
    exact sameEnd_of_value rfl rfl hstop
  | mismatch h _ _ => exact .error rfl rfl h.symm rfl fun hkind => by cases hkind
  | fatal h =>
    cases h with
    | depth nested h => exact .error rfl rfl h.index.symm rfl fun hkind => by cases hkind
    | adapt e => exact .adapt e
    | config e => exact absurd rfl (hconfig e)
    | inconceivable => exact .foreign (hforeign rfl)
  | left h => exact h.elim
  | right h => exact h.elim

/-- **Trivia is transparent**: without ignore sets in the variations, the sifted input is accepted
with a value exactly if the full input is, up to trivia after its end. Every other parse ends with
the same error in both inputs, at an index of the sifted input that is the rank of the index of the
full one. A parse that breaks down at a foreign item does so in both. -/
theorem parseRule_sift (hg : g.Built) (hno : ∀ v ∈ g.variations, v.ignore = none)
    (hr : g.has rule = true) (limit : Int) (tokens : List Token) :
    (∀ x, (g.parseRule limit rule (g.sift tokens)).result = .ok x ↔
      (g.parseRule limit rule tokens).result = .ok x ∨
        ∃ e, (g.parseRule limit rule tokens).result = .error (.parse e) ∧ e.kind = .trailingInput ∧
          e.result = x ∧ ∀ t ∈ tokens.drop e.index, g.ignores none t = true) ∧
      ((∀ x, (g.parseRule limit rule (g.sift tokens)).result ≠ .ok x) →
        (∃ e e', (g.parseRule limit rule tokens).result = .error (.parse e) ∧
          (g.parseRule limit rule (g.sift tokens)).result = .error (.parse e') ∧ e.kind = e'.kind ∧
          e.rule = e'.rule ∧ g.rank tokens e.index = e'.index ∧ e.result = e'.result) ∨
        (∃ a, (g.parseRule limit rule tokens).result = .error (.adapt a) ∧
          (g.parseRule limit rule (g.sift tokens)).result = .error (.adapt a)) ∨
        g.HoldsForeign ∧ (g.parseRule limit rule tokens).result = .error .inconceivable ∧
          (g.parseRule limit rule (g.sift tokens)).result = .error .inconceivable) := by
  have hend := sameEnd_parseRule hg hno hr limit tokens
  generalize (g.parseRule limit rule tokens).result = full at hend ⊢
  generalize (g.parseRule limit rule (g.sift tokens)).result = sifted at hend ⊢
  cases hend with
  | value x => simp
  | @trivia e kind rest =>
    refine ⟨fun x => ?_, fun h => absurd rfl (h e.result)⟩
    constructor
    · intro hx
      exact .inr ⟨e, rfl, kind, by simpa using hx, rest⟩
    · rintro (hx | ⟨f, hf, _, rfl, _⟩)
      · cases hx
      · cases hf
        rfl
  | @error e e' kind rule index result rest =>
    refine ⟨fun x => ?_, fun _ => .inl ⟨e, e', rfl, rfl, kind, rule, index, result⟩⟩
    constructor
    · intro hx
      cases hx
    · rintro (hx | ⟨f, hf, hkind, _, honly⟩)
      · cases hx
      · cases hf
        exact absurd honly (rest hkind)
  | adapt a => simp
  | foreign held => simp [held]

/-- The list gives the value of its first integer, and so it does without trivia. -/
theorem parseRule_sift_sums :
    sums.Built ∧ (∀ v ∈ sums.variations, v.ignore = none) ∧ sums.has "list" = true ∧
      (sums.parseRule 9 "list" (sums.sift shortList)).result = .ok (.token "INT" .null) := by
  have hno : ∀ v ∈ sums.variations, v.ignore = none := by
    simp [sums, listVariation, sumVariation, integerVariation]
  have hfull : (sums.parseRule 9 "list" shortList).result = .ok (.token "INT" .null) := rfl
  have hsifted := ((parseRule_sift sums_built hno rfl 9 shortList).1 _).mpr (.inl hfull)
  exact ⟨sums_built, hno, rfl, hsifted⟩

end Grammar
end TokenGrammar
