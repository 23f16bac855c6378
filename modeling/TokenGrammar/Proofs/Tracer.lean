import TokenGrammar.Proofs.Nesting
import TokenGrammar.Proofs.Routes

/-!
# The tracer

A tracer does not see the record of a parse. It has a counter of levels, and each rule has calls
that it deferred until it is left. Where a rule is entered, the entry is logged with the counter as
it is then, and the exit is deferred together with this number. A rule that goes down a level checks
the counter against the limit, raises it, and defers that it is lowered again. Where a rule is left,
whatever the reason, its deferred calls are made in the opposite order, now that the outcome is
known.

The notes of an evaluation tell what a tracer sees of it. It is always able to follow them, it ends
with its counter at zero and with nothing deferred, and what it has logged are the events of the
record.

## Main definitions

* `Tracer`: counter, deferred calls and log.
* `Tracer.step`, `Tracer.replay`: what a tracer does at one note, and at one after the other.

## Main results

* `Tracer.journal`: to be followed by a tracer is a journal.
* `Setting.replay_evaluateNoted`: a tracer logs the events of the record.
-/
namespace TokenGrammar

/-- A call that a rule defers until it is left. -/
inductive Deferred where
  /-- To log the exit, for the rule and with the level at which it was entered. -/
  | exit (depth : Nat) (rule : String)
  /-- To go a level up. -/
  | ascend

/-- What a tracer keeps: the level at which the next rule is entered, the deferred calls of every
rule that is not left yet, and what it has logged. The innermost rule comes first, and of the calls
of a rule the one that was deferred last. -/
structure Tracer where
  depth : Nat
  pending : List (List Deferred)
  events : List Event

namespace Tracer

/-- The tracer before the first rule. -/
def start : Tracer := ⟨0, [], []⟩

/-- One more event is logged. -/
def log (t : Tracer) (e : Event) : Tracer := { t with events := t.events ++ [e] }

/-- A deferred call is made, with the outcome of the rule that deferred it. -/
def perform (outcome : Outcome Value) (t : Tracer) : Deferred → Tracer
  | .exit depth rule => t.log (.exit depth rule outcome)
  | .ascend => { t with depth := t.depth - 1 }

/-- What a tracer does where something is noted. It cannot follow if a level is used that is not
left, if a level is refused that is left, or if a rule is left that was not entered. -/
def step (limit : Nat) (t : Tracer) : Note → Option Tracer
  | .entry rule c =>
    some { t.log (.enter t.depth rule c.index) with pending := [.exit t.depth rule] :: t.pending }
  | .full => if t.depth < limit then none else some t
  | .nest =>
    match t.pending with
    | [] => none
    | own :: outer =>
      if t.depth < limit then
        some { t with depth := t.depth + 1, pending := (.ascend :: own) :: outer }
      else none
  | .rule _ _ outcome _ _ =>
    match t.pending with
    | [] => none
    | own :: outer => some (own.foldl (perform outcome) { t with pending := outer })
  | .place _ | .look _ | .adapt _ _ | .choice _ _ _ _ | .stopped => some t

/-- What a tracer does in an evaluation. -/
def replay (limit : Nat) (t : Tracer) (notes : List Note) : Option Tracer :=
  notes.foldlM (step limit) t

variable {limit : Nat} {t : Tracer} {n : Note} {notes notes' : List Note}

@[simp] theorem replay_nil : replay limit t [] = some t := rfl

@[simp] theorem replay_cons :
    replay limit t (n :: notes) = (step limit t n).bind fun t => replay limit t notes := rfl

theorem replay_append :
    replay limit t (notes ++ notes') =
      (replay limit t notes).bind fun t => replay limit t notes' := List.foldlM_append

theorem step_quiet (h : n.Quiet) : step limit t n = some t := by
  cases n with
  | look i | adapt s data | choice c outcome d hits => rfl
  | _ => exact h.elim

/-- A tracer with as many levels left follows the notes, and apart from its log it is afterwards as
it was before. The log has grown by the events of the records, at the level of the tracer. -/
def Follows (limit levels : Nat) (notes : List Note) (calls : List Call) : Prop :=
  ∀ t : Tracer, t.depth + levels = limit →
    replay limit t notes = some { t with events := t.events ++ Call.allEvents t.depth calls }

theorem Follows.append {levels : Nat} {calls calls' : List Call} (h : Follows limit levels notes calls)
    (h' : Follows limit levels notes' calls') :
    Follows limit levels (notes ++ notes') (calls ++ calls') := by
  intro t ht
  have hlater := h' { t with events := t.events ++ Call.allEvents t.depth calls } ht
  rw [replay_append, h t ht, Option.bind_some, hlater, Call.allEvents_append, List.append_assoc]

/-- What is not logged leaves the tracer alone. -/
theorem follows_silent (levels : Nat) (h : ∀ t, step limit t n = some t) :
    Follows limit levels [n] [] := by
  intro t _
  rw [replay_cons, h, Option.bind_some, replay_nil, Call.allEvents, List.append_nil]

/-- A rule that goes down: its own calls are made after those of the rules inside it, so the counter
is back where it was when the exit is logged. -/
theorem Follows.nested {levels : Nat} {calls : List Call} (h : Follows limit levels notes calls)
    (rule : String) (c d : Cursor) (outcome : Outcome Value) (hits : List Hit) :
    Follows limit (levels + 1)
      (.entry rule c :: (.nest :: notes ++ [.rule rule c outcome d hits]))
      [.mk rule c.index calls outcome] := by
  intro t ht
  have hlevel : t.depth < limit := by omega
  have hbelow : t.depth + 1 + levels = limit := by omega
  rw [Call.allEvents_singleton]
  simp only [replay_cons, step, log, Option.bind_some, List.cons_append, hlevel, if_true,
    replay_append]
  rw [h _ hbelow]
  simp [perform, log]

/-- To be followed by a tracer is a journal, wherever the cursor is. -/
theorem journal (limit : Nat) :
    Journal (fun _ => True) fun levels _ notes calls _ => Follows limit levels notes calls where
  nil levels _ := by
    intro t _
    rw [replay_nil, Call.allEvents, List.append_nil]
  append := Follows.append
  move _ := follows_silent _ fun _ => rfl
  quiet h := follows_silent _ fun _ => step_quiet h
  refused levels rule c outcome := by
    intro t _
    rw [Call.allEvents_singleton]
    simp [step, perform, log, Call.allEvents]
  full rule c outcome := by
    intro t ht
    have hlevel : ¬ t.depth < limit := by omega
    rw [Call.allEvents_singleton]
    simp [step, perform, log, hlevel, Call.allEvents]
  nested rule outcome hits h := h.nested rule _ _ outcome hits

end Tracer

/-- **A tracer logs the events of the record.** With the limit on nested rules it follows the whole
evaluation of a rule, and ends with its counter at zero and with no deferred call left. -/
theorem Setting.replay_evaluateNoted (s : Setting) (depth : Nat) (rule : String) (c : Cursor) :
    Tracer.replay depth .start (s.evaluateNoted depth rule c).notes =
      some ⟨0, [], Call.allEvents 0 (s.evaluate depth rule c).calls⟩ := by
  have hfollows := (Tracer.journal depth).keeps_evaluateNoted (s := s)
    (fun levels _ => Tracer.follows_silent levels fun _ => rfl) depth rule c (Note.homes_true _)
  rw [hfollows .start (Nat.zero_add depth), toRun_evaluateNoted]
  rfl

end TokenGrammar
