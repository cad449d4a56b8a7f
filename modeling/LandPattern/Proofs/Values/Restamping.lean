import LandPattern.Proofs.Values.Restamp
import LandPattern.Run.Program

/-!
# What is computed from values with other stamps

Operators on numbers, the binding of arguments and the makers of elements look at no stamp. From
values with other stamps they compute the same, or the same value with its stamps changed in the same
way.
-/

namespace LandPattern

variable (f : Nat → Nat)

/-! ## Operators -/

namespace Value

variable (a b : Value)

theorem negate_restamp : (a.restamp f).negate = a.negate.map (restamp f) := by
  cases a with
  | int n =>
    simp only [restamp, negate]
    cases Number.inRange? (-n) <;> rfl
  | _ => rfl

theorem arithmetic_restamp (op : Script.BinaryOp) (onInts : Int → Int → Int)
    (onFloats : Float → Float → Float) :
    arithmetic op onInts onFloats (a.restamp f) (b.restamp f) =
      (arithmetic op onInts onFloats a b).map (restamp f) := by
  cases a with
  | int n =>
    cases b with
    | int m =>
      simp only [restamp, arithmetic]
      cases Number.inRange? (onInts n m) <;> rfl
    | _ => rfl
  | _ => cases b <;> rfl

theorem divide_restamp : (a.restamp f).divide (b.restamp f) = (a.divide b).map (restamp f) := by
  simp only [divide, number?_restamp, type_restamp]
  split
  · split <;> rfl
  · rfl

theorem modulo_restamp : (a.restamp f).modulo (b.restamp f) = (a.modulo b).map (restamp f) := by
  have hfloats (x y : Float) : (if y == 0 then .error (.divisionByZero .mod)
      else .ok (.float (flooredRemainder x y)) : Except Refusal Value) =
        (if y == 0 then .error (.divisionByZero .mod)
          else .ok (.float (flooredRemainder x y)) : Except Refusal Value).map (restamp f) := by
    split <;> rfl
  cases a with
  | int n =>
    cases b with
    | int m =>
      simp only [restamp, modulo]
      split
      · rfl
      · split <;> rfl
    | float y => exact hfloats _ y
    | _ => rfl
  | float x =>
    cases b with
    | int m => exact hfloats x _
    | float y => exact hfloats x y
    | _ => rfl
  | _ => cases b <;> rfl

theorem numberOrder?_restamp :
    numberOrder? (a.restamp f) (b.restamp f) = numberOrder? a b := by
  cases a <;> cases b <;> rfl

theorem order_restamp (op : Script.BinaryOp) :
    order op (a.restamp f) (b.restamp f) = order op a b := by
  cases a <;> cases b <;> rfl

theorem map_repeated {α β : Type} (change : α → β) (times : Nat) (items : List α) :
    (repeated times items).map change = repeated times (items.map change) := by
  simp only [repeated, List.isEmpty_map]
  split
  · rfl
  · rw [List.map_flatten, List.map_replicate]

end Value

/-! ## Variables -/

/-- The variables with other stamps. -/
def Scope.restamp (scope : Scope) : Scope := scope.map (Prod.map id (Value.restamp f))

namespace Scope

theorem lookup_restamp (scope : Scope) (name : String) :
    (scope.restamp f).lookup name = (scope.lookup name).map (Value.restamp f) := by
  induction scope with
  | nil => rfl
  | cons entry rest ih =>
    obtain ⟨key, v⟩ := entry
    simp only [restamp, List.map_cons, Prod.map, id, List.lookup_cons] at ih ⊢
    cases name == key with
    | true => rfl
    | false => exact ih

theorem declare_restamp (scope : Scope) (name : String) (v : Value) :
    (scope.declare name v).restamp f = (scope.restamp f).declare name (v.restamp f) := by
  induction scope with
  | nil => rfl
  | cons entry rest ih =>
    obtain ⟨key, w⟩ := entry
    simp only [declare, restamp, List.map_cons, Prod.map, id] at ih ⊢
    split
    · rfl
    · rw [List.map_cons, ih]
      rfl

end Scope

/-! ## Arguments -/

/-- The arguments with other stamps. -/
def Arguments.restamp (args : Arguments) : Arguments :=
  ⟨args.positional.map (Value.restamp f), Scope.restamp f args.keywords⟩

/-- What is bound with other stamps. -/
def Bound.restamp (bound : Bound) : Bound := ⟨bound.callee, Scope.restamp f bound.values⟩

namespace Arguments

variable (args : Arguments) (callee : String)

theorem add_restamp (v : Value) : (args.add v).restamp f = (args.restamp f).add (v.restamp f) := by
  simp [add, restamp]

theorem addKeyword_restamp (name : String) (v : Value) :
    (args.restamp f).addKeyword name (v.restamp f) =
      (args.addKeyword name v).map (restamp f) := by
  simp only [addKeyword, restamp, Scope.lookup_restamp, Option.isSome_map]
  split
  · rfl
  · simp [Except.map, Scope.restamp, restamp]

theorem unnamed_restamp :
    (args.restamp f).unnamed callee = (args.unnamed callee).map (List.map (Value.restamp f)) := by
  obtain ⟨positional, keywords⟩ := args
  cases keywords <;> rfl

theorem only_restamp : (args.restamp f).only callee = (args.only callee).map (Value.restamp f) := by
  rw [only, only, unnamed_restamp]
  rcases args.unnamed callee with why | values
  · rfl
  · rcases values with _ | ⟨first, _ | ⟨second, rest⟩⟩
    · rfl
    · rfl
    · have hcount : ((first :: second :: rest).map (Value.restamp f)).length =
          (first :: second :: rest).length := List.length_map _
      exact congrArg (fun count =>
        (Except.error (.functionTakesOne callee count) : Except Refusal Value)) hcount

theorem onlyOfMethod_restamp :
    (args.restamp f).onlyOfMethod callee = (args.onlyOfMethod callee).map (Value.restamp f) := by
  rw [onlyOfMethod, onlyOfMethod, unnamed_restamp]
  rcases args.unnamed callee with why | values
  · rfl
  · rcases values with _ | ⟨first, _ | ⟨second, rest⟩⟩
    · rfl
    · rfl
    · have hcount : ((first :: second :: rest).map (Value.restamp f)).length =
          (first :: second :: rest).length := List.length_map _
      exact congrArg (fun count =>
        (Except.error (.methodTakesOne callee count) : Except Refusal Value)) hcount

theorem noneOfMethod_restamp : (args.restamp f).noneOfMethod callee = args.noneOfMethod callee := by
  rw [noneOfMethod, noneOfMethod, unnamed_restamp]
  rcases args.unnamed callee with why | values
  · rfl
  · cases values with
    | nil => rfl
    | cons first rest =>
      have hcount : ((first :: rest).map (Value.restamp f)).length = (first :: rest).length :=
        List.length_map _
      exact congrArg (fun count =>
        (Except.error (.methodTakesNone callee count) : Except Refusal Unit)) hcount

end Arguments

namespace Bound

theorem withKeywords_restamp (params : List String) (bound : Bound) (keywords : Scope) :
    withKeywords params (bound.restamp f) (keywords.restamp f) =
      (withKeywords params bound keywords).map (restamp f) := by
  induction keywords generalizing bound with
  | nil => rfl
  | cons entry rest ih =>
    obtain ⟨name, v⟩ := entry
    have hmore : ({ bound.restamp f with
        values := (bound.restamp f).values ++ [(name, v.restamp f)] } : Bound) =
          ({ bound with values := bound.values ++ [(name, v)] } : Bound).restamp f := by
      simp [restamp, Scope.restamp]
    have hfound : ((bound.restamp f).values.lookup name).isSome =
        (bound.values.lookup name).isSome := by
      rw [restamp, Scope.lookup_restamp, Option.isSome_map]
    simp only [Scope.restamp, List.map_cons, Prod.map, id, withKeywords, hfound] at ih ⊢
    split
    · rfl
    · split
      · rfl
      · rw [hmore]
        exact ih _

theorem bind_restamp (args : Arguments) (callee : String) (params : List String) :
    (args.restamp f).bind callee params = (args.bind callee params).map (restamp f) := by
  have hzip : params.zip (args.positional.map (Value.restamp f)) =
      Scope.restamp f (params.zip args.positional) := List.zip_map_right
  simp only [Arguments.bind, Arguments.restamp, List.length_map]
  split
  · rfl
  · rw [hzip]
    exact withKeywords_restamp f params ⟨callee, _⟩ args.keywords

theorem take_restamp (bound : Bound) (param : String) :
    (bound.restamp f).take param =
      ((bound.take param).1.map (Value.restamp f), (bound.take param).2.restamp f) := by
  simp only [take, restamp, Scope.lookup_restamp]
  simp only [Scope.restamp, List.filter_map, Function.comp_def, Prod.map, id]

theorem require_restamp (bound : Bound) (param : String) :
    (bound.restamp f).require param =
      (bound.require param).map (Prod.map (Value.restamp f) (restamp f)) := by
  rw [require, require, take_restamp]
  rcases bound.take param with ⟨_ | v, rest⟩ <;> rfl

end Bound

namespace Binding

variable {α β : Type} {change : α → α}

/-- From values with other stamps the second reading reads what the first one reads, up to a
change. -/
def Follows (change : α → α) (reading later : Binding α) : Prop :=
  ∀ bound, later (bound.restamp f) = (reading bound).map (Prod.map change (Bound.restamp f))

variable {f}

theorem Follows.pure {value found : α} (h : found = change value) :
    Follows f change (pure value) (pure found) := fun _ => h ▸ rfl

theorem Follows.bind {changed : β → β} {reading later : Binding α} {next more : α → Binding β}
    (h : Follows f change reading later)
    (hn : ∀ value, Follows f changed (next value) (more (change value))) :
    Follows f changed (reading >>= next) (later >>= more) := by
  intro bound
  have hfirst := h bound
  change (later (bound.restamp f) >>= fun found => more found.1 found.2) =
    (reading bound >>= fun found => next found.1 found.2).map (Prod.map changed (Bound.restamp f))
  rw [hfirst]
  rcases reading bound with why | ⟨value, rest⟩
  · rfl
  · exact hn value rest

theorem Follows.lift {step found : Except Refusal α} (h : found = step.map change) :
    Follows f change (liftM step : Binding α) (liftM found) := by
  intro bound
  subst h
  cases step <;> rfl

theorem follows_get : Follows f (Bound.restamp f) get get := fun _ => rfl

theorem follows_set (bound : Bound) :
    Follows f id (set bound : Binding PUnit) (set (bound.restamp f)) := fun _ => rfl

theorem follows_required {read : Value → String → Except Refusal α} (param : String)
    (h : ∀ v what, read (v.restamp f) what = (read v what).map change) :
    Follows f change (required param read) (required param read) :=
  .bind follows_get fun bound => .bind (.lift (bound.require_restamp f param)) fun found =>
    .bind (follows_set found.2) fun _ => .lift (h found.1 param)

theorem follows_optional {read : Value → String → Except Refusal α} (param : String)
    (h : ∀ v what, read (v.restamp f) what = (read v what).map change) :
    Follows f (Option.map change) (optional param read) (optional param read) := by
  refine .bind follows_get fun bound => ?_
  rw [Bound.take_restamp]
  rcases bound.take param with ⟨found, rest⟩
  refine .bind (follows_set rest) fun _ => ?_
  cases found with
  | none => exact .pure rfl
  | some v => exact .bind (.lift (h v param)) fun _ => .pure rfl

theorem follows_leftover : Follows f (Scope.restamp f) leftover leftover := fun _ => rfl

theorem follows_foldl {γ : Type} {step : α → γ → Binding α} {switch : γ → γ} (start : α)
    (items : List γ)
    (h : ∀ done item, Follows f change (step done item) (step (change done) (switch item))) :
    Follows f change (items.foldlM step start) ((items.map switch).foldlM step (change start)) := by
  induction items generalizing start with
  | nil => exact .pure rfl
  | cons item rest ih => exact .bind (h start item) fun done => ih done

theorem run_restamp {reading later : Binding α} (h : Follows f change reading later)
    (args : Arguments) (callee : String) (params : List String) :
    run later (args.restamp f) callee params = (run reading args callee params).map change := by
  rw [run, run, Bound.bind_restamp]
  rcases args.bind callee params with why | bound
  · rfl
  · change (later (bound.restamp f) >>= fun found => .ok found.1) =
      (reading bound >>= fun found => .ok found.1).map change
    rw [h bound]
    rcases reading bound with why | found <;> rfl

end Binding

theorem Evaluation.bindParams_restamp (function : Script.Function) (args : Arguments) :
    bindParams function (args.restamp f) = (bindParams function args).map (Scope.restamp f) := by
  have hstep (scope : Scope) (param : String) :
      Binding.Follows f (Scope.restamp f)
        (do
          let v ← Binding.required param fun v _ => pure v
          return scope.declare param v)
        (do
          let v ← Binding.required (id param) fun v _ => pure v
          return (scope.restamp f).declare (id param) v) :=
    .bind (Binding.follows_required param fun _ _ => rfl) fun v =>
      .pure (Scope.declare_restamp f scope param v).symm
  have hfold := Binding.follows_foldl [] (function.params.map Script.Name.text) hstep
  rw [List.map_id] at hfold
  exact Binding.run_restamp hfold _ _ _

/-! ## The vocabulary -/

theorem Element.write_restamp (e : Element) (field : String) (v : Value) :
    e.write field (v.restamp f) = e.write field v := by
  simp only [write, Value.asDatum_restamp]

section

variable {α : Type} {reading : Value → String → Except Refusal α}

/-- What reads the same from a value with other stamps. -/
theorem Binding.follows_same (param : String)
    (h : ∀ v what, reading (v.restamp f) what = reading v what) :
    Follows f id (required param reading) (required param reading) := by
  refine follows_required param fun v what => ?_
  rw [h]
  cases reading v what <;> rfl

/-- The same for a parameter that may have no value. -/
theorem Binding.follows_sameOptional (param : String)
    (h : ∀ v what, reading (v.restamp f) what = reading v what) :
    Follows f id (optional param reading) (optional param reading) := by
  rw [← Option.map_id]
  refine follows_optional param fun v what => ?_
  rw [h]
  cases reading v what <;> rfl

end

theorem Binding.run_same {α : Type} {reading : Binding α} (h : Follows f id reading reading)
    (args : Arguments) (callee : String) (params : List String) :
    run reading (args.restamp f) callee params = run reading args callee params := by
  rw [run_restamp h]
  cases run reading args callee params <;> rfl

namespace Builtin

open Binding (follows_same follows_sameOptional run_same)
open Value (asNumber_restamp asText_restamp asPair_restamp asPadName_restamp asCount_restamp)

variable (args : Arguments)

theorem follows_writeLeftover (e : Element) :
    Binding.Follows f id (writeLeftover e) (writeLeftover e) := by
  refine .bind Binding.follows_leftover fun entries => Binding.follows_foldl e entries
    fun done entry => .lift ?_
  obtain ⟨field, v⟩ := entry
  change done.write field (v.restamp f) = _
  rw [Element.write_restamp]
  cases done.write field v <;> rfl

theorem makeRect_restamp (kind : RectKind) : makeRect kind (args.restamp f) = makeRect kind args :=
  run_same f (.bind (follows_same f _ (asNumber_restamp f)) fun _ =>
    .bind (follows_same f _ (asNumber_restamp f)) fun _ => follows_writeLeftover f _) _ _ _

theorem makeLine_restamp : makeLine (args.restamp f) = makeLine args :=
  run_same f (.bind (follows_same f _ (asPair_restamp f)) fun _ =>
    .bind (follows_same f _ (asPair_restamp f)) fun _ => follows_writeLeftover f _) _ _ _

theorem makeCaption_restamp (kind : CaptionKind) :
    makeCaption kind (args.restamp f) = makeCaption kind args := by
  have hrequired := follows_same f "txt" (asText_restamp f)
  have hoptional := follows_sameOptional f "txt" (asText_restamp f)
  cases kind with
  | reference =>
    exact run_same f (.bind hoptional fun _ => .bind (.pure rfl) fun _ =>
      follows_writeLeftover f _) _ _ _
  | text => exact run_same f (.bind hrequired fun _ => follows_writeLeftover f _) _ _ _
  | name => exact run_same f (.bind hrequired fun _ => follows_writeLeftover f _) _ _ _

theorem makeSmd_restamp : makeSmd (args.restamp f) = makeSmd args := by
  have hlength : (args.restamp f).positional.length = args.positional.length := List.length_map _
  unfold makeSmd
  rw [hlength]
  refine run_same f (.bind (follows_same f _ (asPadName_restamp f)) fun _ =>
    .bind (follows_same f _ (asPair_restamp f)) fun _ =>
      .bind (follows_sameOptional f _ (asPair_restamp f)) fun found => ?_) _ _ _
  cases found with
  | none => exact .bind (.pure rfl) fun _ => follows_writeLeftover f _
  | some position => exact .bind (.pure rfl) fun _ => follows_writeLeftover f _

theorem makeDrilled_restamp (bore : Bore) :
    makeDrilled bore (args.restamp f) = makeDrilled bore args :=
  run_same f (.bind (follows_same f _ (asPadName_restamp f)) fun _ =>
    .bind (follows_same f _ (asNumber_restamp f)) fun _ =>
      .bind (follows_same f _ (asNumber_restamp f)) fun _ => follows_writeLeftover f _) _ _ _

theorem makeModel_restamp : makeModel (args.restamp f) = makeModel args := by
  have hmodel (filename : String) : Binding.Follows f id (pure (Element.model ⟨filename⟩))
      (pure (Element.model ⟨filename⟩)) := .pure rfl
  exact run_same f (.bind (follows_same f "filename" (asText_restamp f)) hmodel) args "Model"
    ["filename"]

theorem asTemplate_restamp (v : Value) (what : String) :
    asTemplate (v.restamp f) what = asTemplate v what := by
  cases v <;> rfl

theorem asSharedName_restamp (v : Value) (what : String) :
    asSharedName (v.restamp f) what = asSharedName v what := by
  cases v <;> rfl

theorem progression_restamp (values : List Value) :
    Progression.ofValues (values.map (Value.restamp f)) = Progression.ofValues values := by
  rcases values with _ | ⟨first, _ | ⟨second, _ | ⟨third, _ | ⟨fourth, rest⟩⟩⟩⟩
  · rfl
  · simp only [List.map_cons, List.map_nil, Progression.ofValues, Value.asInt_restamp]
  · simp only [List.map_cons, List.map_nil, Progression.ofValues, Value.asInt_restamp]
  · simp only [List.map_cons, List.map_nil, Progression.ofValues, Value.asInt_restamp]
  · simp only [List.map_cons, Progression.ofValues, List.length_cons, List.length_map]

theorem lengthOf_restamp : lengthOf (args.restamp f) = (lengthOf args).map (Value.restamp f) := by
  rw [lengthOf, lengthOf, Arguments.only_restamp]
  rcases args.only "len" with why | v
  · rfl
  · cases v with
    | list s | tuple s =>
      have hlength : (restampItems f s.items).length = s.items.length := by
        rw [restampItems_eq_map, List.length_map]
      exact congrArg (fun length : Nat => (Except.ok (.int length) : Except Refusal Value)) hlength
    | _ => rfl

theorem absoluteOf_restamp :
    absoluteOf (args.restamp f) = (absoluteOf args).map (Value.restamp f) := by
  rw [absoluteOf, absoluteOf, Arguments.only_restamp]
  rcases args.only "abs" with why | v
  · rfl
  · cases v with
    | int n =>
      simp only [Except.map, Value.restamp, bind, Except.bind]
      cases Number.inRange? n.natAbs <;> rfl
    | _ => rfl

theorem extremeFrom_restamp (callee : String) (wanted : Ordering) (best : Value)
    (candidates : List Value) :
    extremeFrom callee wanted (best.restamp f) (candidates.map (Value.restamp f)) =
      (extremeFrom callee wanted best candidates).map (Value.restamp f) := by
  induction candidates generalizing best with
  | nil =>
    simp only [List.map_nil, extremeFrom, Value.number?_restamp, Value.type_restamp]
    split <;> rfl
  | cons candidate rest ih =>
    simp only [List.map_cons, extremeFrom, Value.numberOrder?_restamp, Value.type_restamp]
    split
    · rename_i found _
      cases found == wanted with
      | true => exact ih candidate
      | false => exact ih best
    · rfl

theorem extremeOf_restamp (callee : String) (wanted : Ordering) :
    extremeOf callee wanted (args.restamp f) =
      (extremeOf callee wanted args).map (Value.restamp f) := by
  rw [extremeOf, extremeOf, Arguments.unnamed_restamp]
  rcases args.unnamed callee with why | values
  · rfl
  · rcases values with _ | ⟨first, _ | ⟨second, rest⟩⟩
    · rfl
    · have hone := extremeFrom_restamp f callee wanted first []
      cases first with
      | list s | tuple s =>
        obtain ⟨items, depth, stamp⟩ := s
        cases items with
        | nil => rfl
        | cons best rest =>
          have hfrom := extremeFrom_restamp f callee wanted best rest
          rw [← restampItems_eq_map] at hfrom
          exact hfrom
      | _ => exact hone
    · have htwo := extremeFrom_restamp f callee wanted first (second :: rest)
      cases first <;> exact htwo

theorem intOf_restamp : intOf (args.restamp f) = (intOf args).map (Value.restamp f) := by
  rw [intOf, intOf, Arguments.only_restamp]
  rcases args.only "int" with why | v
  · rfl
  · cases v with
    | float x =>
      simp only [Except.map, Value.restamp, bind, Except.bind]
      cases Option.bind (Number.truncate? x) Number.inRange? <;> rfl
    | text s =>
      simp only [Except.map, Value.restamp, bind, Except.bind]
      cases Number.readInt? (Text.trim s.toList) <;> rfl
    | _ => rfl

theorem floatOf_restamp : floatOf (args.restamp f) = (floatOf args).map (Value.restamp f) := by
  rw [floatOf, floatOf, Arguments.only_restamp]
  rcases args.only "float" with why | v
  · rfl
  · cases v with
    | text s =>
      simp only [Except.map, Value.restamp, bind, Except.bind]
      cases Number.readFloat? (Text.trim s.toList) <;> rfl
    | _ => rfl

end Builtin

namespace Method

open Binding (follows_same run_same)

theorem placed_restamp (e : Element) (args : Arguments) :
    placed e (args.restamp f) = placed e args := by
  have hplaced (name : PadName) (x y : Float) :
      Binding.Follows f id (pure (e.place name x y)) (pure (e.place name x y)) := .pure rfl
  exact run_same f (.bind (follows_same f "name" (Value.asPadName_restamp f)) fun name =>
    .bind (follows_same f "x" (Value.asNumber_restamp f)) fun x =>
      .bind (follows_same f "y" (Value.asNumber_restamp f)) (hplaced name x)) args "at"
        ["name", "x", "y"]

theorem callOnElement_restamp (e : Element) (method : String) (args : Arguments) :
    callOnElement e method (args.restamp f) =
      (callOnElement e method args).map (Prod.map (Value.restamp f) (Value.restamp f)) := by
  unfold callOnElement
  split
  · rw [placed_restamp]
    cases placed _ args <;> rfl
  · rw [placed_restamp]
    cases placed _ args <;> rfl
  · rw [Arguments.noneOfMethod_restamp]
    cases args.noneOfMethod _ <;> rfl
  · rfl

end Method

end LandPattern
