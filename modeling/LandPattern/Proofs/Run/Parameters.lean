import LandPattern.Proofs.Run.Writes
import LandPattern.Run.Program

/-!
# Arguments and parameters

A call gives values without names and values under names. They are collected as they are evaluated,
bound to parameters, and read parameter by parameter. Each of these steps has refusals of its own;
together they accept exactly the arguments that cover every parameter once, whatever the order in
which the named ones are given.
-/

namespace LandPattern

open Script (Argument Function Name Span)

/-! ## Names and their values -/

namespace Scope

variable {scope other : Scope} {name : String} {v : Value}

/-- A new name is declared behind all others. -/
theorem declare_of_not_mem (h : name ∉ scope.names) :
    scope.declare name v = scope ++ [(name, v)] := by
  induction scope with
  | nil => rfl
  | cons entry rest ih =>
    obtain ⟨key, w⟩ := entry
    obtain ⟨hkey, hrest⟩ := List.ne_and_not_mem_of_not_mem_cons h
    rw [declare, if_neg (Ne.symm hkey), ih hrest, List.cons_append]

theorem names_append (scope other : Scope) : names (scope ++ other) = scope.names ++ other.names :=
  List.map_append

/-- Names in a row are paired with as many values as there are. -/
theorem names_zip (params : List String) (values : List Value) :
    names (params.zip values) = params.take values.length := by
  induction params generalizing values with
  | nil => rw [List.zip_nil_left, List.take_nil]; rfl
  | cons param params ih =>
    cases values with
    | nil => rfl
    | cons v values => exact congrArg (param :: ·) (ih values)

theorem lookup_zip {params : List String} (h : params.Nodup) (values : List Value) {i : Nat}
    (hi : i < params.length) : (params.zip values).lookup params[i] = values[i]? := by
  induction params generalizing values i with
  | nil => exact absurd hi (Nat.not_lt_zero i)
  | cons param params ih =>
    obtain ⟨hparam, hrest⟩ := List.nodup_cons.1 h
    cases values with
    | nil => rfl
    | cons v values =>
      cases i with
      | zero => exact List.lookup_cons_self
      | succ i =>
        have hi' : i < params.length := Nat.lt_of_succ_lt_succ hi
        have hne : params[i] ≠ param := fun heq => hparam (heq ▸ List.getElem_mem hi')
        rw [List.zip_cons_cons, List.getElem_cons_succ, List.lookup_cons,
          beq_eq_false_iff_ne.2 hne]
        exact ih hrest values hi'

end Scope

/-! ## Collecting -/

/-- The evaluated arguments of a call as they are written, each with its name if it has one. -/
abbrev Given := List (Option String × Value)

namespace Given

/-- The values without names. -/
def positional (given : Given) : List Value :=
  given.filterMap fun entry => if entry.1.isNone then some entry.2 else none

/-- The values with names. -/
def named (given : Given) : Scope :=
  given.filterMap fun entry => entry.1.map fun name => (name, entry.2)

/-- Every parameter is covered once: there are no more values without names than parameters, no name
is given twice, each is one of a parameter that no value without a name takes, and all parameters
have values. -/
structure Covers (given : Given) (params : List String) : Prop where
  few : given.positional.length ≤ params.length
  distinct : given.named.names.Nodup
  free : ∀ name ∈ given.named.names,
    name ∈ params ∧ name ∉ params.take given.positional.length
  all : ∀ param ∈ params,
    param ∈ params.take given.positional.length ∨ param ∈ given.named.names

theorem positional_unnamed (v : Value) (given : Given) :
    positional ((none, v) :: given) = v :: given.positional := rfl

theorem positional_named (name : String) (v : Value) (given : Given) :
    positional ((some name, v) :: given) = given.positional := rfl

theorem named_unnamed (v : Value) (given : Given) : named ((none, v) :: given) = given.named := rfl

theorem named_named (name : String) (v : Value) (given : Given) :
    named ((some name, v) :: given) = (name, v) :: given.named := rfl

/-- The order of the values with names does not matter. -/
theorem Covers.perm {given other : Given} {params : List String} (h : given.Covers params)
    (hpositional : other.positional = given.positional) (hnamed : other.named.Perm given.named) :
    other.Covers params := by
  have hnames : other.named.names.Perm given.named.names := hnamed.map Prod.fst
  refine ⟨?_, hnames.nodup_iff.2 h.distinct, fun name hname => ?_, fun param hparam => ?_⟩
  · rw [hpositional]
    exact h.few
  · rw [hpositional]
    exact h.free name (hnames.mem_iff.1 hname)
  · rw [hpositional, hnames.mem_iff]
    exact h.all param hparam

end Given

namespace Arguments

/-- The arguments with one more. -/
def give (args : Arguments) : Option String × Value → Except Refusal Arguments
  | (none, v) => .ok (args.add v)
  | (some name, v) => args.addKeyword name v

/-- The arguments that are collected from what a call gives. -/
def gather (given : Given) : Except Refusal Arguments := given.foldlM give empty

theorem addKeyword_eq_ok_iff {args more : Arguments} {name : String} {v : Value} :
    args.addKeyword name v = .ok more ↔
      name ∉ Scope.names args.keywords ∧
        more = ⟨args.positional, args.keywords ++ [(name, v)]⟩ := by
  unfold addKeyword
  split
  · rename_i hfound
    have hmem := (Scope.isSome_lookup_iff _ _).1 hfound
    exact ⟨fun heq => (by cases heq), fun h => absurd hmem h.1⟩
  · rename_i hmissing
    have hnot : name ∉ Scope.names args.keywords := fun hmem =>
      hmissing ((Scope.isSome_lookup_iff _ _).2 hmem)
    exact ⟨fun heq => ⟨hnot, (Except.ok.inj heq).symm⟩, fun h => congrArg _ h.2.symm⟩

/-- Collecting goes on from the arguments that there are already. -/
theorem give_eq_ok_iff {done args : Arguments} {given : Given} :
    given.foldlM give done = .ok args ↔ given.named.names.Nodup ∧
      (∀ name ∈ given.named.names, name ∉ Scope.names done.keywords) ∧
      args = ⟨done.positional ++ given.positional, done.keywords ++ given.named⟩ := by
  induction given generalizing done with
  | nil =>
    change Except.ok done = .ok args ↔ _
    rw [Except.ok.injEq]
    simp [Given.positional, Given.named, Scope.names, eq_comm (a := done)]
  | cons entry given ih =>
    obtain ⟨_ | name, v⟩ := entry
    · change given.foldlM give (done.add v) = .ok args ↔ _
      rw [ih, Given.positional_unnamed, Given.named_unnamed]
      simp [add]
    · rw [Given.positional_named, Given.named_named, List.foldlM_cons]
      change (done.addKeyword name v >>= fun more => given.foldlM give more) = .ok args ↔ _
      constructor
      · intro h
        obtain ⟨more, hmore, hrest⟩ := exists_of_bind_ok h
        obtain ⟨hnew, rfl⟩ := addKeyword_eq_ok_iff.1 hmore
        obtain ⟨hdistinct, hfree, rfl⟩ := ih.1 hrest
        have hapart : ∀ other ∈ (Given.named given).names,
            other ≠ name ∧ other ∉ Scope.names done.keywords := by
          intro other hother
          have hnot := hfree other hother
          rw [Scope.names_append, List.mem_append, not_or] at hnot
          exact ⟨fun heq => hnot.2 (List.mem_singleton.2 heq), hnot.1⟩
        refine ⟨List.nodup_cons.2 ⟨fun hmem => (hapart name hmem).1 rfl, hdistinct⟩,
          List.forall_mem_cons.2 ⟨hnew, fun other hother => (hapart other hother).2⟩, ?_⟩
        rw [List.append_assoc, List.singleton_append]
      · rintro ⟨hdistinct, hfree, rfl⟩
        obtain ⟨hname, hdistinct⟩ := List.nodup_cons.1 hdistinct
        obtain ⟨hnew, hfree⟩ := List.forall_mem_cons.1 hfree
        rw [addKeyword_eq_ok_iff.2 ⟨hnew, rfl⟩]
        refine ih.2 ⟨hdistinct, fun other hother hmem => ?_, ?_⟩
        · rw [Scope.names_append, List.mem_append] at hmem
          rcases hmem with hold | hsame
          · exact hfree other hother hold
          · exact hname (List.mem_singleton.1 hsame ▸ hother)
        · rw [List.append_assoc, List.singleton_append]

/-- What is given can be collected when no name is given twice. -/
theorem gather_eq_ok_iff {given : Given} {args : Arguments} :
    gather given = .ok args ↔
      given.named.names.Nodup ∧ args = ⟨given.positional, given.named⟩ := by
  rw [gather, give_eq_ok_iff]
  simp [empty, Scope.names]

end Arguments

/-! ## Binding -/

/-- Keywords are bound when no name occurs twice and each is one of a parameter without a value. -/
theorem Bound.withKeywords_eq_ok_iff {params : List String} {bound done : Bound}
    {keywords : Scope} :
    bound.withKeywords params keywords = .ok done ↔ keywords.names.Nodup ∧
      (∀ name ∈ keywords.names, name ∈ params ∧ name ∉ Scope.names bound.values) ∧
      done = ⟨bound.callee, bound.values ++ keywords⟩ := by
  induction keywords generalizing bound with
  | nil =>
    change Except.ok bound = .ok done ↔ _
    simp [Scope.names, eq_comm]
  | cons entry keywords ih =>
    obtain ⟨name, v⟩ := entry
    have hnames : Scope.names ((name, v) :: keywords) = name :: Scope.names keywords := rfl
    rw [withKeywords, hnames, List.nodup_cons, List.forall_mem_cons]
    by_cases hparam : name ∈ params
    · by_cases hfound : name ∈ Scope.names bound.values
      · rw [if_neg (by simpa using hparam), if_pos ((Scope.isSome_lookup_iff _ _).2 hfound)]
        exact ⟨fun heq => (by cases heq), fun h => absurd hfound h.2.1.1.2⟩
      · have hlookup : ¬ (bound.values.lookup name).isSome = true := fun hsome =>
          hfound ((Scope.isSome_lookup_iff _ _).1 hsome)
        rw [if_neg (by simpa using hparam), if_neg hlookup, ih]
        simp only [Scope.names_append, List.mem_append, List.append_assoc, List.singleton_append]
        constructor
        · rintro ⟨hdistinct, hfree, rfl⟩
          refine ⟨⟨fun hmem => ?_, hdistinct⟩, ⟨⟨hparam, hfound⟩, fun other hother => ?_⟩, rfl⟩
          · exact (hfree name hmem).2 (.inr (List.mem_singleton.2 rfl))
          · exact ⟨(hfree other hother).1, fun hmem => (hfree other hother).2 (.inl hmem)⟩
        · rintro ⟨⟨hname, hdistinct⟩, ⟨-, hfree⟩, rfl⟩
          refine ⟨hdistinct, fun other hother => ⟨(hfree other hother).1, ?_⟩, rfl⟩
          rintro (hold | hsame)
          · exact (hfree other hother).2 hold
          · obtain rfl : other = name := List.mem_singleton.1 hsame
            exact hname hother
    · rw [if_pos (by simpa using hparam)]
      exact ⟨fun heq => (by cases heq), fun h => absurd h.2.1.1.1 hparam⟩

namespace Arguments

/-- No more positional arguments than parameters, and keywords of different parameters that no
positional argument takes. -/
structure Fits (args : Arguments) (params : List String) : Prop where
  few : args.positional.length ≤ params.length
  distinct : (Scope.names args.keywords).Nodup
  free : ∀ name ∈ Scope.names args.keywords,
    name ∈ params ∧ name ∉ params.take args.positional.length

/-- What is bound when the arguments fit. -/
def bound (args : Arguments) (callee : String) (params : List String) : Bound :=
  ⟨callee, params.zip args.positional ++ args.keywords⟩

/-- Arguments are bound just when they fit. -/
theorem bind_eq_ok_iff {args : Arguments} {callee : String} {params : List String}
    {bound : Bound} :
    args.bind callee params = .ok bound ↔ args.Fits params ∧ bound = args.bound callee params := by
  unfold Arguments.bind
  split
  · exact ⟨fun heq => (by cases heq), fun h => absurd h.1.few (by omega)⟩
  · rename_i hfew
    rw [Bound.withKeywords_eq_ok_iff, Scope.names_zip]
    constructor
    · rintro ⟨hdistinct, hfree, rfl⟩
      exact ⟨⟨Nat.le_of_not_lt hfew, hdistinct, hfree⟩, rfl⟩
    · rintro ⟨⟨-, hdistinct, hfree⟩, rfl⟩
      exact ⟨hdistinct, hfree, rfl⟩

end Arguments

/-! ## Reading -/

namespace Binding

variable {α : Type}

theorem lift_apply (step : Except Refusal α) (bound : Bound) :
    (liftM step : Binding α) bound = step.map (·, bound) := by
  cases step <;> rfl

/-- A value that a parameter must have is taken out and read. -/
theorem required_apply (param : String) (read : Value → String → Except Refusal α)
    (bound : Bound) :
    required param read bound =
      match bound.values.lookup param with
      | none => .error (.missingArgument bound.callee param)
      | some v => (read v param).map (·, (bound.take param).2) := by
  have hrequire : bound.require param = match bound.values.lookup param with
      | none => .error (.missingArgument bound.callee param)
      | some v => .ok (v, (bound.take param).2) := by
    rw [Bound.require, Bound.take]
    cases bound.values.lookup param <;> rfl
  change ((liftM (bound.require param) : Binding (Value × Bound)) bound >>= fun found =>
    (liftM (read found.1.1 param) : Binding α) found.1.2) = _
  rw [lift_apply, hrequire]
  cases bound.values.lookup param with
  | none => rfl
  | some v => exact lift_apply _ _

end Binding

namespace Evaluation

open Act (ofExcept)

/-- Reads parameters one after another and declares them. -/
def declareAll (scope : Scope) (params : List String) : Binding Scope :=
  params.foldlM (fun (scope : Scope) param => do
    let v ← Binding.required param fun v _ => pure v
    return scope.declare param v) scope

/-- A parameter with a value is declared, and its value is taken out. -/
theorem declareAll_cons (scope : Scope) (param : String) (params : List String) (bound : Bound) :
    declareAll scope (param :: params) bound =
      match bound.values.lookup param with
      | none => .error (.missingArgument bound.callee param)
      | some v => declareAll (scope.declare param v) params (bound.take param).2 := by
  have hrequired := Binding.required_apply param (fun v _ => pure v) bound
  rw [declareAll, List.foldlM_cons]
  change ((Binding.required param (fun v _ => pure v) bound >>= fun found =>
    .ok (scope.declare param found.1, found.2)) >>= fun found =>
      declareAll found.1 params found.2) = _
  rw [hrequired]
  cases bound.values.lookup param <;> rfl

/-- Parameters are declared in their order, when all of them have values. -/
theorem exists_declareAll_iff {scope found : Scope} {params : List String} {bound : Bound}
    (hp : params.Nodup) (hnew : ∀ param ∈ params, param ∉ scope.names) :
    (∃ rest, declareAll scope params bound = .ok (found, rest)) ↔
      ∃ values : List Value, params.map (fun param => bound.values.lookup param) = values.map some ∧
        found = scope ++ params.zip values := by
  induction params generalizing scope bound with
  | nil =>
    constructor
    · rintro ⟨rest, heq⟩
      cases heq
      exact ⟨[], rfl, (List.append_nil _).symm⟩
    · rintro ⟨values, -, rfl⟩
      rw [List.zip_nil_left, List.append_nil]
      exact ⟨bound, rfl⟩
  | cons param params ih =>
    obtain ⟨hparam, hrest⟩ := List.nodup_cons.1 hp
    obtain ⟨hfresh, hothers⟩ := List.forall_mem_cons.1 hnew
    rw [declareAll_cons, List.map_cons]
    cases hlookup : bound.values.lookup param with
    | none =>
      constructor
      · rintro ⟨rest, heq⟩
        cases heq
      · rintro ⟨_ | ⟨v, values⟩, hvalues, -⟩
        · cases hvalues
        · cases (List.cons.inj hvalues).1
    | some v =>
      -- What is left for the other parameters is what they had before.
      have hsame : params.map (fun other => (bound.take param).2.values.lookup other) =
          params.map fun other => bound.values.lookup other := by
        refine List.map_congr_left fun other hother => ?_
        have hne : other ≠ param := fun heq => hparam (heq ▸ hother)
        rw [Bound.take, Entries.lookup_filter fun name => name != param]
        exact if_pos (bne_iff_ne.2 hne)
      have hapart : ∀ other ∈ params, other ∉ (scope.declare param v).names := by
        intro other hother hmem
        rw [Scope.declare_of_not_mem hfresh, Scope.names_append, List.mem_append] at hmem
        rcases hmem with hold | hlast
        · exact hothers other hother hold
        · obtain rfl : other = param := List.mem_singleton.1 hlast
          exact hparam hother
      dsimp only
      rw [ih hrest hapart, hsame, Scope.declare_of_not_mem hfresh]
      constructor
      · rintro ⟨values, hvalues, rfl⟩
        refine ⟨v :: values, by rw [hvalues, List.map_cons], ?_⟩
        rw [List.zip_cons_cons, List.append_assoc, List.singleton_append]
      · rintro ⟨_ | ⟨w, values⟩, hvalues, rfl⟩
        · cases hvalues
        · obtain ⟨hv, hothers⟩ := List.cons.inj hvalues
          cases hv
          refine ⟨values, hothers, ?_⟩
          rw [List.zip_cons_cons, List.append_assoc, List.singleton_append]

/-- Parameters that all have values are declared. -/
theorem exists_declareAll {params : List String} {bound : Bound} (hp : params.Nodup)
    (h : ∀ param ∈ params, param ∈ Scope.names bound.values) :
    ∃ scope rest, declareAll [] params bound = .ok (scope, rest) := by
  have hvalues : params.map (fun param => bound.values.lookup param) =
      (params.map fun param => (bound.values.lookup param).getD .nothing).map some := by
    rw [List.map_map]
    refine List.map_congr_left fun param hparam => ?_
    obtain ⟨v, hv⟩ := Option.isSome_iff_exists.1 ((Scope.isSome_lookup_iff _ _).2 (h param hparam))
    rw [Function.comp_apply, hv, Option.getD_some]
  exact ⟨_, (exists_declareAll_iff hp fun param _ => List.not_mem_nil).2 ⟨_, hvalues, rfl⟩⟩

variable {function : Function} {given : Given} {scope : Scope}

theorem bindParams_eq_ok_iff {args : Arguments} :
    bindParams function args = .ok scope ↔
      ∃ bound rest, args.bind function.name.text (function.params.map Name.text) = .ok bound ∧
        declareAll [] (function.params.map Name.text) bound = .ok (scope, rest) := by
  constructor
  · intro h
    obtain ⟨bound, hbound, hread⟩ := exists_of_bind_ok h
    obtain ⟨⟨found, rest⟩, hfound, hlast⟩ := exists_of_bind_ok hread
    cases hlast
    exact ⟨bound, rest, hbound, hfound⟩
  · rintro ⟨bound, rest, hbound, hread⟩
    change (args.bind _ _ >>= fun bound => declareAll [] _ bound >>= fun found => .ok found.1) = _
    rw [hbound]
    change (declareAll [] _ bound >>= fun found => .ok found.1) = _
    rw [hread]
    rfl

/-- What stands under a parameter when all arguments are bound. -/
theorem lookup_bound {params : List String} (hd : params.Nodup) (given : Given) {i : Nat}
    (hi : i < params.length) :
    (params.zip given.positional ++ given.named).lookup params[i] =
      given.positional[i]?.or (given.named.lookup params[i]) := by
  rw [List.lookup_append, Scope.lookup_zip hd given.positional hi]

/-- The variables of a call are its parameters in order, each with the positional value in its place
or else the value under its name. -/
theorem scope_of_gathered (hd : (function.params.map Name.text).Nodup)
    (h : (Arguments.gather given >>= bindParams function) = .ok scope) :
    given.Covers (function.params.map Name.text) ∧
      scope.names = function.params.map Name.text ∧
      ∀ (i : Nat) (hi : i < (function.params.map Name.text).length),
        scope.lookup (function.params.map Name.text)[i] =
          given.positional[i]?.or (given.named.lookup (function.params.map Name.text)[i]) := by
  obtain ⟨args, hargs, hparams⟩ := exists_of_bind_ok h
  obtain ⟨hdistinct, rfl⟩ := Arguments.gather_eq_ok_iff.1 hargs
  obtain ⟨bound, rest, hbound, hread⟩ := bindParams_eq_ok_iff.1 hparams
  obtain ⟨⟨hfew, -, hfree⟩, rfl⟩ := Arguments.bind_eq_ok_iff.1 hbound
  obtain ⟨values, hvalues, rfl⟩ :=
    (exists_declareAll_iff hd fun _ _ => List.not_mem_nil).1 ⟨rest, hread⟩
  generalize function.params.map Name.text = params at *
  rw [List.nil_append]
  have hlength : params.length = values.length := by
    rw [← List.length_map, hvalues, List.length_map]
  have hall : ∀ (i : Nat) (hi : i < params.length),
      (params.zip given.positional ++ given.named).lookup params[i] = values[i]? := by
    intro i hi
    have hvalue := congrArg (fun row : List (Option Value) => row[i]?) hvalues
    simp only [List.getElem?_map, List.getElem?_eq_getElem hi, Option.map_some] at hvalue
    rw [List.getElem?_eq_getElem (hlength ▸ hi)] at hvalue ⊢
    exact Option.some.inj hvalue
  refine ⟨⟨hfew, hdistinct, hfree, fun param hparam => ?_⟩, ?_, fun i hi => ?_⟩
  · obtain ⟨i, hi, rfl⟩ := List.getElem_of_mem hparam
    have hsome : (List.lookup params[i] (params.zip given.positional ++ given.named)).isSome := by
      rw [hall i hi, List.getElem?_eq_getElem (hlength ▸ hi)]
      rfl
    have hmem := (Scope.isSome_lookup_iff _ _).1 hsome
    rwa [Scope.names_append, Scope.names_zip, List.mem_append] at hmem
  · rw [Scope.names_zip, ← hlength, List.take_length]
  · rw [Scope.lookup_zip hd values hi, ← hall i hi, lookup_bound hd given hi]

/-- Arguments that cover every parameter once are accepted. -/
theorem exists_scope_of_covers (hd : (function.params.map Name.text).Nodup)
    (h : given.Covers (function.params.map Name.text)) :
    ∃ scope, (Arguments.gather given >>= bindParams function) = .ok scope := by
  obtain ⟨hfew, hdistinct, hfree, hall⟩ := h
  let bound : Bound := ⟨function.name.text,
    (function.params.map Name.text).zip given.positional ++ given.named⟩
  have hbound : Arguments.bind ⟨given.positional, given.named⟩ function.name.text
      (function.params.map Name.text) = .ok bound :=
    Arguments.bind_eq_ok_iff.2 ⟨⟨hfew, hdistinct, hfree⟩, rfl⟩
  have hcovered : ∀ param ∈ function.params.map Name.text, param ∈ Scope.names bound.values := by
    intro param hparam
    rw [Scope.names_append, Scope.names_zip, List.mem_append]
    exact hall param hparam
  obtain ⟨scope, rest, hread⟩ := exists_declareAll hd hcovered
  refine ⟨scope, ?_⟩
  rw [Arguments.gather_eq_ok_iff.2 ⟨hdistinct, rfl⟩]
  exact bindParams_eq_ok_iff.2 ⟨bound, rest, hbound, hread⟩

/-- In another order of the named ones the arguments give the same variables. -/
theorem gathered_of_perm {other : Given} (hd : (function.params.map Name.text).Nodup)
    (hpositional : other.positional = given.positional) (hnamed : other.named.Perm given.named)
    (h : (Arguments.gather given >>= bindParams function) = .ok scope) :
    (Arguments.gather other >>= bindParams function) = .ok scope := by
  obtain ⟨hcovers, hnames, hvalues⟩ := scope_of_gathered hd h
  obtain ⟨found, hfound⟩ := exists_scope_of_covers hd (hcovers.perm hpositional hnamed)
  obtain ⟨-, hfoundNames, hfoundValues⟩ := scope_of_gathered hd hfound
  rw [hfound]
  have hdistinct : scope.names.Nodup := hnames ▸ hd
  refine congrArg _ (Entries.eq_of_lookup (hfoundNames.trans hnames.symm) hdistinct ?_)
  intro name hname
  replace hname : name ∈ function.params.map Name.text := hnames ▸ hname
  obtain ⟨i, hi, rfl⟩ := List.getElem_of_mem hname
  rw [hfoundValues i hi, hvalues i hi, hpositional,
    Entries.lookup_of_perm hnamed hcovers.distinct]

end Evaluation

end LandPattern
