import TokenGrammar.Strategy.Basic
import Mathlib.Data.Nat.Find

/-!
# Calls of constructors

A constructor is called with what was captured exactly if its signature admits the captured values:
their number is right, and each of them is null or of a type that can be assigned to the type of its
position. What is admitted is stated here position by position, without the walk along the values
that decides it. Everything else follows from one equation for each of the two ways in which the
walk ends: it has arguments for all values, or it stops at the first that does not fit.

That a constructor is not called shows in the result: whatever function stands in its place, the
result is the same. A constructor that is called answers for itself, and what it breaks down with is
reported, unless it breaks down with nothing: then there is neither a result nor an error.

All of this holds for any types. The captured values are one case, and declared types with pointers
to them are another.

## Main definitions

* `Signature.Serves`: the type of a position.
* `TypeSystem.Admits`: the values with which a constructor is called.
* `TypeSystem.Passes`: the arguments of the call.
* `TypeSystem.Misfit`: the first value that does not fit.
* `TypeSystem.answer`: the result of a constructor that was called.

## Main results

* `arguments_of_admits`, `arguments_of_misfit`: the two ways in which the gate ends.
* `construct_eq`: the result as the gate decides it.
-/
namespace TokenGrammar

/-! ## What a signature admits -/

namespace Signature

variable {τ : Type} {s : Signature τ} {i n : Nat} {p : τ}

/-- The type of a position: that of the parameter there, and the rest type everywhere after the
fixed parameters. -/
inductive Serves (s : Signature τ) : Nat → τ → Prop
  | fixed {i : Nat} {p : τ} (param : s.params[i]? = some p) : Serves s i p
  | rest {i : Nat} {p : τ} (past : s.params.length ≤ i) (rest : s.rest? = some p) : Serves s i p

theorem param?_eq_some_iff : s.param? i = some p ↔ s.Serves i p := by
  rw [param?]
  constructor
  · intro h
    cases hparam : s.params[i]? with
    | none =>
      rw [hparam] at h
      exact .rest (List.getElem?_eq_none_iff.mp hparam) h
    | some q =>
      rw [hparam] at h
      cases h
      exact .fixed hparam
  · rintro (hparam | ⟨hpast, hrest⟩)
    · rw [hparam]
      rfl
    · rw [List.getElem?_eq_none hpast, hrest]
      rfl

/-- The numbers of values that a signature takes. -/
def Takes (s : Signature τ) (count : Nat) : Prop :=
  match s.rest? with
  | none => count = s.params.length
  | some _ => s.params.length ≤ count

theorem takes_eq_true_iff : s.takes n = true ↔ s.Takes n := by
  rw [takes, Takes]
  cases s.rest? <;> simp

/-- Every position of the values that a signature takes has a type. -/
theorem Takes.exists_serves (h : s.Takes n) (hi : i < n) : ∃ p, s.Serves i p := by
  rw [Takes] at h
  rcases lt_or_ge i s.params.length with hfixed | hpast
  · exact ⟨_, .fixed (List.getElem?_eq_getElem hfixed)⟩
  · cases hrest : s.rest? with
    | none =>
      rw [hrest] at h
      omega
    | some p => exact ⟨p, .rest hpast hrest⟩

end Signature

namespace TypeSystem

variable {τ ν : Type} {T : TypeSystem τ ν} {s : Signature τ} {data args args' : List ν}
  {i n : Nat} {v : ν} {p t : τ}

/-- Whether a value may stand at a position: null may stand at every position that there is, any
other value where its type can be assigned to the type of the position. -/
def Fits (T : TypeSystem τ ν) (s : Signature τ) (i : Nat) (v : ν) : Prop :=
  ∃ p, s.Serves i p ∧ ∀ t, T.type? v = some t → T.assignable t p = true

/-- The values with which a constructor is called: their number is right, and each fits. -/
structure Admits (T : TypeSystem τ ν) (s : Signature τ) (data : List ν) : Prop where
  takes : s.Takes data.length
  fits : ∀ i v, data[i]? = some v → T.Fits s i v

/-- The arguments of a call: the values in order, with the zero of the type of its position for each
null. -/
structure Passes (T : TypeSystem τ ν) (s : Signature τ) (data args : List ν) : Prop where
  length : args.length = data.length
  null : ∀ (i : Nat) p, data[i]? = some T.null → s.Serves i p → args[i]? = some (T.zero p)
  value : ∀ (i : Nat) v, data[i]? = some v → v ≠ T.null → args[i]? = some v

/-- The first value that does not fit, with its position and the type of the position. -/
structure Misfit (T : TypeSystem τ ν) (s : Signature τ) (data : List ν) (i : Nat) (v : ν) (p : τ) :
    Prop where
  value : data[i]? = some v
  serves : s.Serves i p
  refused : ∃ t, T.type? v = some t ∧ T.assignable t p = false
  first : ∀ j < i, ∀ w, data[j]? = some w → T.Fits s j w

/-- Values of the right number are admitted, or one of them is the first that does not fit. -/
theorem exists_misfit (htakes : s.Takes data.length) (h : ¬ T.Admits s data) :
    ∃ i v p, T.Misfit s data i v p := by
  classical
  have hsome : ∃ i v, data[i]? = some v ∧ ¬ T.Fits s i v := by
    by_contra hnone
    refine h ⟨htakes, fun i v hv => ?_⟩
    by_contra hfits
    exact hnone ⟨i, v, hv, hfits⟩
  obtain ⟨v, hv, hfits⟩ := Nat.find_spec hsome
  obtain ⟨p, hp⟩ := htakes.exists_serves (List.getElem?_eq_some_iff.mp hv).1
  obtain ⟨t, ht, hrefused⟩ : ∃ t, T.type? v = some t ∧ ¬ T.assignable t p = true := by
    by_contra hnone
    refine hfits ⟨p, hp, fun t ht => ?_⟩
    by_contra hrefused
    exact hnone ⟨t, ht, hrefused⟩
  refine ⟨Nat.find hsome, v, p, hv, hp, ⟨t, ht, Bool.eq_false_iff.mpr hrefused⟩, ?_⟩
  intro j hj w hw
  by_contra hnot
  exact Nat.find_min hsome hj ⟨w, hw, hnot⟩

/-! ## The walk along the values -/

variable (T) in
/-- What is passed for a value at a position. -/
def given (s : Signature τ) (i : Nat) (v : ν) : ν :=
  match s.param? i, T.type? v with
  | some p, none => T.zero p
  | _, _ => v

theorem type?_null : T.type? T.null = none := (T.type?_eq_none_iff T.null).mpr rfl

theorem given_null (h : s.Serves i p) : T.given s i T.null = T.zero p := by
  rw [given, Signature.param?_eq_some_iff.mpr h, type?_null]

theorem given_of_ne (h : v ≠ T.null) : T.given s i v = v := by
  rw [given]
  split
  · next hnull => exact absurd ((T.type?_eq_none_iff v).mp hnull) h
  · rfl

theorem argument_of_serves (h : s.Serves i p) (ht : T.type? v = some t) :
    T.argument s i v =
      if T.assignable t p then .ok v else .error (.type (T.typeName v) (T.name p) i) := by
  simp only [argument, Signature.param?_eq_some_iff.mpr h, ht]

theorem Fits.argument_eq (h : T.Fits s i v) : T.argument s i v = .ok (T.given s i v) := by
  obtain ⟨p, hp, hadmits⟩ := h
  cases ht : T.type? v with
  | none => simp only [argument, given, Signature.param?_eq_some_iff.mpr hp, ht]
  | some t =>
    have hne : v ≠ T.null := fun hnull => by rw [hnull, type?_null] at ht; cases ht
    rw [argument_of_serves hp ht, if_pos (hadmits t ht), given_of_ne hne]

/-- Where all values fit, the walk has an argument for each. -/
theorem argumentsFrom_of_fits (h : ∀ i v, data[i]? = some v → T.Fits s (n + i) v) :
    T.argumentsFrom s n data = .ok (data.mapIdx fun i v => T.given s (n + i) v) := by
  induction data generalizing n with
  | nil => rfl
  | cons v vs ih =>
    have hv : T.Fits s n v := h 0 v rfl
    have hrest : ∀ i w, vs[i]? = some w → T.Fits s (n + 1 + i) w := by
      intro i w hw
      rw [Nat.add_assoc, Nat.add_comm 1]
      exact h (i + 1) w hw
    simp only [argumentsFrom, hv.argument_eq, ih hrest, Except.map, List.mapIdx_cons, Nat.add_zero,
      Nat.add_assoc, Nat.add_comm 1]

/-- The walk stops at the first value that does not fit. -/
theorem argumentsFrom_of_misfit (hv : data[i]? = some v) (hserves : s.Serves (n + i) p)
    (ht : T.type? v = some t) (hrefused : T.assignable t p = false)
    (hfirst : ∀ j < i, ∀ w, data[j]? = some w → T.Fits s (n + j) w) :
    T.argumentsFrom s n data = .error (.type (T.typeName v) (T.name p) (n + i)) := by
  induction data generalizing n i with
  | nil => cases hv
  | cons w vs ih =>
    cases i with
    | zero =>
      obtain rfl := Option.some.inj hv
      rw [Nat.add_zero] at hserves ⊢
      rw [argumentsFrom, argument_of_serves hserves ht, hrefused]
      rfl
    | succ i =>
      have hw : T.Fits s n w := hfirst 0 (Nat.succ_pos i) w rfl
      have hshift : ∀ j, n + 1 + j = n + (j + 1) := fun j => by omega
      have hrest : ∀ j < i, ∀ u, vs[j]? = some u → T.Fits s (n + 1 + j) u := by
        intro j hj u hu
        rw [hshift]
        exact hfirst (j + 1) (Nat.succ_lt_succ hj) u hu
      have hlater := ih hv (n := n + 1) (by rw [hshift]; exact hserves) hrest
      simp only [argumentsFrom, hw.argument_eq, hlater, Except.map, hshift]

/-- There are arguments for values that are admitted. -/
theorem arguments_of_admits (h : T.Admits s data) :
    ∃ args, T.arguments s data = .ok args ∧ T.Passes s data args := by
  refine ⟨data.mapIdx (T.given s), ?_, ?_⟩
  · rw [arguments, if_pos (Signature.takes_eq_true_iff.mpr h.takes)]
    simpa using argumentsFrom_of_fits (n := 0) (by simpa using h.fits)
  · refine ⟨List.length_mapIdx, fun i p hnull hp => ?_, fun i v hv hne => ?_⟩
    · rw [List.getElem?_mapIdx, hnull, Option.map_some, given_null hp]
    · rw [List.getElem?_mapIdx, hv, Option.map_some, given_of_ne hne]

theorem arguments_of_not_takes (h : ¬ s.Takes data.length) :
    T.arguments s data = .error (.arity (s.render T.name) data.length) := by
  rw [arguments, if_neg (mt Signature.takes_eq_true_iff.mp h)]

/-- The first value that does not fit is named. -/
theorem arguments_of_misfit (htakes : s.Takes data.length) (h : T.Misfit s data i v p) :
    T.arguments s data = .error (.type (T.typeName v) (T.name p) i) := by
  obtain ⟨t, ht, hrefused⟩ := h.refused
  rw [arguments, if_pos (Signature.takes_eq_true_iff.mpr htakes)]
  have hserves : s.Serves (0 + i) p := by rw [Nat.zero_add]; exact h.serves
  simpa using argumentsFrom_of_misfit h.value hserves ht hrefused (by simpa using h.first)

theorem arguments_of_not_admits (h : ¬ T.Admits s data) : ∃ e, T.arguments s data = .error e := by
  by_cases htakes : s.Takes data.length
  · obtain ⟨i, v, p, hmisfit⟩ := exists_misfit htakes h
    exact ⟨_, arguments_of_misfit htakes hmisfit⟩
  · exact ⟨_, arguments_of_not_takes htakes⟩

theorem admits_of_arguments (h : T.arguments s data = .ok args) : T.Admits s data := by
  by_contra hdata
  obtain ⟨e, he⟩ := arguments_of_not_admits hdata
  rw [h] at he
  cases he

/-! ## The arguments of the call -/

/-- The arguments are determined: every position has a type that says what stands for a null. -/
theorem Passes.unique (htakes : s.Takes data.length) (h : T.Passes s data args)
    (h' : T.Passes s data args') : args = args' := by
  refine List.ext_getElem? fun i => ?_
  cases hv : data[i]? with
  | none =>
    have hpast : data.length ≤ i := List.getElem?_eq_none_iff.mp hv
    rw [List.getElem?_eq_none (h.length ▸ hpast), List.getElem?_eq_none (h'.length ▸ hpast)]
  | some v =>
    obtain ⟨p, hp⟩ := htakes.exists_serves (List.getElem?_eq_some_iff.mp hv).1
    by_cases hnull : v = T.null
    · subst hnull
      rw [h.null i p hv hp, h'.null i p hv hp]
    · rw [h.value i v hv hnull, h'.value i v hv hnull]

/-- The arguments of the call are admitted, so the call itself cannot go wrong. -/
theorem Passes.admits (h : T.Passes s data args) (hdata : T.Admits s data) : T.Admits s args := by
  refine ⟨by rw [h.length]; exact hdata.takes, fun i a ha => ?_⟩
  have hi : i < data.length := h.length ▸ (List.getElem?_eq_some_iff.mp ha).1
  obtain ⟨p, hp⟩ := hdata.takes.exists_serves hi
  have hv : data[i]? = some data[i] := List.getElem?_eq_getElem hi
  by_cases hnull : data[i] = T.null
  · rw [h.null i p (hnull ▸ hv) hp] at ha
    cases ha
    exact ⟨p, hp, T.assignable_zero p⟩
  · rw [h.value i _ hv hnull] at ha
    cases ha
    exact hdata.fits i _ hv

/-! ## The result -/

variable (T) in
/-- The result of a constructor that was called: its value, or an error with the cause of its
failure or of its breakdown. A breakdown without a cause leaves nothing behind. -/
def answer : Reply ν → Except AdaptFault ν
  | .value v => .ok v
  | .failed cause => .error (.failed cause)
  | .crashed (some cause) => .error (.crashed cause)
  | .crashed none => .ok T.null

theorem answer_eq_crashed_iff {r : Reply ν} {cause : String} :
    T.answer r = .error (.crashed cause) ↔ r = .crashed (some cause) := by
  cases r with
  | crashed reason => cases reason <;> simp [answer]
  | _ => simp [answer]

/-- The result as told by the gate: the constructor is called where the gate has arguments. -/
theorem construct_eq (hs : s.isConstructor = true) (body : List ν → Reply ν) :
    T.construct (.function s body) data =
      match T.arguments s data with
      | .ok args => T.answer (body args)
      | .error e => .error (.gate e) := by
  have hfault : (Constructor.function s body).fault? T = none := if_pos hs
  simp only [construct, hfault]
  cases T.arguments s data with
  | error e => rfl
  | ok args =>
    dsimp only
    cases body args with
    | crashed cause => cases cause <;> rfl
    | _ => rfl

/-- A call with admitted values is a call with their arguments. -/
theorem construct_of_admits (hs : s.isConstructor = true) (hdata : T.Admits s data) :
    ∃ args, (∀ args', T.Passes s data args' ↔ args' = args) ∧ T.Admits s args ∧
      ∀ body, T.construct (.function s body) data = T.answer (body args) := by
  obtain ⟨args, hargs, hpasses⟩ := arguments_of_admits hdata
  refine ⟨args, fun args' => ⟨fun h => h.unique hdata.takes hpasses, fun h => h ▸ hpasses⟩,
    hpasses.admits hdata, fun body => ?_⟩
  rw [construct_eq hs, hargs]

/-- Values that are not admitted are refused, and the constructor is not called. -/
theorem construct_of_not_admits (hs : s.isConstructor = true) (hdata : ¬ T.Admits s data) :
    ∃ e, ∀ body, T.construct (.function s body) data = .error (.gate e) := by
  obtain ⟨e, he⟩ := arguments_of_not_admits hdata
  refine ⟨e, fun body => ?_⟩
  rw [construct_eq hs, he]

/-- A constructor is called exactly with admitted values: only then does the result depend on it. -/
theorem admits_iff_called (hs : s.isConstructor = true) :
    T.Admits s data ↔
      ∃ body body', T.construct (.function s body) data ≠ T.construct (.function s body') data := by
  constructor
  · intro hdata
    obtain ⟨args, -, -, hcall⟩ := construct_of_admits hs hdata
    refine ⟨fun _ => .value T.null, fun _ => .failed "", ?_⟩
    rw [hcall, hcall]
    exact fun h => by cases h
  · intro ⟨body, body', hne⟩
    by_contra hdata
    obtain ⟨e, hrefused⟩ := construct_of_not_admits hs hdata
    exact hne (by rw [hrefused, hrefused])

/-- A breakdown is reported exactly if the constructor broke down with a cause. -/
theorem construct_eq_crashed_iff (hs : s.isConstructor = true) (body : List ν → Reply ν)
    (cause : String) :
    T.construct (.function s body) data = .error (.crashed cause) ↔
      T.Admits s data ∧ ∃ args, T.Passes s data args ∧ body args = .crashed (some cause) := by
  by_cases hdata : T.Admits s data
  · obtain ⟨args, hargs, -, hcall⟩ := construct_of_admits hs hdata
    simp only [hcall, answer_eq_crashed_iff, hdata, hargs, true_and, exists_eq_left]
  · obtain ⟨e, hrefused⟩ := construct_of_not_admits hs hdata
    simp [hrefused, hdata]

theorem construct_eq_null (hs : s.isConstructor = true) {body : List ν → Reply ν}
    (hdata : T.Admits s data) (hpasses : T.Passes s data args)
    (hcrash : body args = .crashed none) : T.construct (.function s body) data = .ok T.null := by
  obtain ⟨args', hargs, -, hcall⟩ := construct_of_admits hs hdata
  obtain rfl := (hargs args).mp hpasses
  rw [hcall, hcrash, answer]

/-- The errors are those of the gate, where the constructor is not called, and those of the
constructor. -/
theorem construct_eq_error (hs : s.isConstructor = true) {body : List ν → Reply ν}
    {fault : AdaptFault} (h : T.construct (.function s body) data = .error fault) :
    (∃ gate, fault = .gate gate ∧ ¬ T.Admits s data) ∨
      (∃ cause, fault = .failed cause ∧ T.Admits s data) ∨
      (∃ cause, fault = .crashed cause ∧ T.Admits s data) := by
  by_cases hdata : T.Admits s data
  · obtain ⟨args, -, -, hcall⟩ := construct_of_admits hs hdata
    rw [hcall] at h
    generalize body args = reply at h
    cases reply with
    | value v => cases h
    | failed cause =>
      cases h
      exact .inr (.inl ⟨cause, rfl, hdata⟩)
    | crashed cause =>
      cases cause with
      | none => cases h
      | some cause =>
        cases h
        exact .inr (.inr ⟨cause, rfl, hdata⟩)
  · obtain ⟨gate, hrefused⟩ := construct_of_not_admits hs hdata
    rw [hrefused] at h
    cases h
    exact .inl ⟨gate, rfl, hdata⟩

end TypeSystem

/-! ## The strategy -/

/-- The error of a strategy whose constructor may be used. -/
def AdaptFault.ofConstruct (fault : AdaptFault) : AdaptError :=
  ⟨"construct(func)", "construct(func)", fault⟩

/-- The strategy reports what the construction gives under its own name. -/
theorem Strategy.adapt_function {s : Signature ParamType} (hs : s.isConstructor = true)
    (body : List Value → Reply Value) (data : List Value) :
    (construct (.function s body)).adapt data =
      (Value.types.construct (.function s body) data).mapError AdaptFault.ofConstruct := by
  have hfault : (Constructor.function s body).fault? Value.types = none := if_pos hs
  have hname : (construct (.function s body)).render = "construct(func)" := by
    rw [render, hfault]
    rfl
  rw [adapt, apply, traceName, hname]
  · rfl
  · nofun

/-- **Calls of constructors**, for any types: a constructor is called exactly with the values that
its signature admits, as is seen from a result that depends on it. It then gets the values in order,
with the zero of the type of its position for each null, and these arguments are admitted in their
turn; the result is what it returns, or an error with the cause of its failure or of its breakdown.
All other values are refused whatever the constructor is: a wrong number of values first of all, and
otherwise the first value that does not fit. A breakdown is reported exactly if it came with a
cause. One without a cause is taken for a null, and nothing else goes wrong. A strategy gives what
the construction gives, and its errors carry its name. -/
theorem TypeSystem.construct_exact {τ ν : Type} (T : TypeSystem τ ν) {s : Signature τ}
    (hs : s.isConstructor = true) (data : List ν) :
    (T.Admits s data ↔
      ∃ body body', T.construct (.function s body) data ≠ T.construct (.function s body') data) ∧
    (T.Admits s data → ∃ args, (∀ args', T.Passes s data args' ↔ args' = args) ∧
      T.Admits s args ∧ ∀ body, T.construct (.function s body) data = T.answer (body args)) ∧
    (¬ s.Takes data.length → ∀ body, T.construct (.function s body) data =
      .error (.gate (.arity (s.render T.name) data.length))) ∧
    (s.Takes data.length → ¬ T.Admits s data → ∃ i v p, T.Misfit s data i v p ∧
      ∀ body, T.construct (.function s body) data =
        .error (.gate (.type (T.typeName v) (T.name p) i))) ∧
    (∀ body cause, T.construct (.function s body) data = .error (.crashed cause) ↔
      T.Admits s data ∧ ∃ args, T.Passes s data args ∧ body args = .crashed (some cause)) ∧
    (∀ body args, T.Admits s data → T.Passes s data args → body args = .crashed none →
      T.construct (.function s body) data = .ok T.null) ∧
    (∀ body fault, T.construct (.function s body) data = .error fault →
      (∃ gate, fault = .gate gate ∧ ¬ T.Admits s data) ∨
      (∃ cause, fault = .failed cause ∧ T.Admits s data) ∨
      (∃ cause, fault = .crashed cause ∧ T.Admits s data)) ∧
    (∀ cause, (AdaptFault.failed cause).summary = "constructor failed" ∧
      (AdaptFault.failed cause).cause? = some cause ∧
      (AdaptFault.crashed cause).summary = "panicked" ∧
      (AdaptFault.crashed cause).cause? = some cause) ∧
    (∀ (s' : Signature ParamType) body values, s'.isConstructor = true →
      (Strategy.construct (.function s' body)).adapt values =
        (Value.types.construct (.function s' body) values).mapError AdaptFault.ofConstruct) := by
  refine ⟨admits_iff_called hs, construct_of_admits hs, fun htakes body => ?_,
    fun htakes hdata => ?_, construct_eq_crashed_iff hs,
    fun body args => construct_eq_null hs, fun body fault => construct_eq_error hs,
    fun _ => ⟨rfl, rfl, rfl, rfl⟩, fun s' body values hs' => Strategy.adapt_function hs' body values⟩
  · rw [construct_eq hs, arguments_of_not_takes htakes]
  · obtain ⟨i, v, p, hmisfit⟩ := exists_misfit htakes hdata
    refine ⟨i, v, p, hmisfit, fun body => ?_⟩
    rw [construct_eq hs, arguments_of_misfit htakes hmisfit]

/-! ## Declared types and pointers -/

/-- Types with a name, pointers to types, and a type that everything can be assigned to. -/
inductive DeclaredType where
  | any
  | named (name : String)
  | pointer (target : DeclaredType)
deriving DecidableEq

namespace DeclaredType

/-- The name of a type in messages. -/
def render : DeclaredType → String
  | any => "interface \x7b\x7d"
  | named name => name
  | pointer target => "*" ++ target.render

/-- Each type has its values by number, and the first is its zero. -/
def types : TypeSystem DeclaredType (Option (DeclaredType × Nat)) where
  null := none
  type? v := v.map Prod.fst
  name := render
  assignable type wanted := wanted == any || type == wanted
  zero
    | any => none
    | type => some (type, 0)
  type?_eq_none_iff v := Option.map_eq_none_iff
  assignable_zero t u h := by
    cases t with
    | any => rfl
    | _ => simp_all

/-- A pointer to a node, and anything after it. -/
def pointerThenRest : Signature DeclaredType :=
  ⟨[pointer (named "Node")], some any, [.value (named "Node"), .error]⟩

end DeclaredType

open DeclaredType in
/-- A missing pointer is passed as the zero of its type, which is not null. -/
theorem TypeSystem.construct_exact_pointerThenRest :
    pointerThenRest.isConstructor = true ∧
      ∀ body, types.construct (.function pointerThenRest body) [none, some (named "Leaf", 3), none] =
        types.answer (body [some (pointer (named "Node"), 0), some (named "Leaf", 3), none]) := by
  have harguments : types.arguments pointerThenRest [none, some (named "Leaf", 3), none] =
      .ok [some (pointer (named "Node"), 0), some (named "Leaf", 3), none] := rfl
  obtain ⟨-, hcall, -⟩ := construct_exact types (s := pointerThenRest) rfl
    [none, some (named "Leaf", 3), none]
  have hadmits := admits_of_arguments harguments
  obtain ⟨args, hargs, -, hanswer⟩ := hcall hadmits
  obtain ⟨args', hargs', hpasses⟩ := arguments_of_admits hadmits
  obtain rfl := Except.ok.inj (harguments.symm.trans hargs')
  obtain rfl := (hargs _).mp hpasses
  exact ⟨rfl, hanswer⟩

/-- A function without parameters. -/
def nullary : Signature ParamType := ⟨[], none, [.value .any]⟩

/-- A constructor that breaks down with nothing gives null, and no error tells of it. So it is not
so that a constructor which breaks down always ends in an error. -/
theorem Strategy.adapt_construct_silent :
    nullary.isConstructor = true ∧ Value.types.Admits nullary [] ∧
      Value.types.Passes nullary [] [] ∧
      (construct (.function nullary fun _ => .crashed none)).adapt [] = .ok .null ∧
      ¬ ∀ body : List Value → Reply Value,
        (∃ cause, body [] = .crashed cause) ↔
          ∃ e, (construct (.function nullary body)).adapt [] = .error e ∧
            e.fault.summary = "panicked" := by
  have harguments : Value.types.arguments nullary [] = .ok [] := rfl
  have hsilent : (construct (.function nullary fun _ => .crashed none)).adapt [] = .ok .null := rfl
  refine ⟨rfl, TypeSystem.admits_of_arguments harguments, ⟨rfl, by simp, by simp⟩, hsilent, ?_⟩
  intro hreported
  obtain ⟨e, he, -⟩ := (hreported fun _ => .crashed none).mp ⟨none, rfl⟩
  rw [hsilent] at he
  cases he

end TokenGrammar
