import LandPattern.Builtin.Call
import LandPattern.Method
import LandPattern.Run.Program
import LandPattern.Value.Operator

/-!
# What values refuse

Two refusals are about the script and not about values: writing to what is no place, and calling a
function that is not defined. Operators, the vocabulary, methods and the binding of arguments never
refuse with one of these.
-/

namespace LandPattern

/-- Any refusal but the two that are about the script. -/
def Refusal.Common : Refusal → Prop
  | .notAPlace | .undefinedFunction _ => False
  | _ => True

/-- What is refused is refused with a common refusal. -/
def Refusal.CommonIn {α : Type} (result : Except Refusal α) : Prop :=
  ∀ why, result = .error why → why.Common

namespace Refusal.CommonIn

variable {α β : Type} {result : Except Refusal α}

theorem ok (value : α) : CommonIn (.ok value) := fun _ heq => (by cases heq)

theorem error {why : Refusal} (h : why.Common) :
    CommonIn (.error why : Except Refusal α) :=
  fun _ heq => Except.error.inj heq ▸ h

theorem bind {next : α → Except Refusal β} (h : CommonIn result)
    (hn : ∀ value, CommonIn (next value)) : CommonIn (result >>= next) := by
  cases result with
  | ok value => exact hn value
  | error why => exact error (h why rfl)

theorem map {change : α → β} (h : CommonIn result) : CommonIn (change <$> result) := by
  cases result with
  | ok value => exact ok (change value)
  | error why => exact error (h why rfl)

theorem ite {other : Except Refusal α} {condition : Prop} [Decidable condition]
    (h : CommonIn result) (ho : CommonIn other) :
    CommonIn (if condition then result else other) := by
  split
  · exact h
  · exact ho

theorem mapM {step : α → Except Refusal β} (h : ∀ value, CommonIn (step value))
    (values : List α) : CommonIn (values.mapM step) := by
  induction values with
  | nil => exact ok []
  | cons value rest ih =>
    rw [List.mapM_cons]
    exact bind (h value) fun _ => bind ih fun _ => ok _

end Refusal.CommonIn

open Refusal (CommonIn)

/-! ## Expected values -/

namespace Value

variable (v : Value) (what : String)

theorem common_asNumber : CommonIn (v.asNumber what) := by
  unfold asNumber
  split
  · exact .error trivial
  · exact .ite (.ok _) (.error trivial)

theorem common_asBool : CommonIn (v.asBool what) := by
  cases v <;> first | exact .ok _ | exact .error trivial

theorem common_asText : CommonIn (v.asText what) := by
  cases v <;> first | exact .ok _ | exact .error trivial

theorem common_asInt : CommonIn (v.asInt what) := by
  cases v <;> first | exact .ok _ | exact .error trivial

theorem common_asCount : CommonIn (v.asCount what) := by
  cases v <;> first | exact .ite (.error trivial) (.ok _) | exact .error trivial

theorem common_asPadName : CommonIn (v.asPadName what) := by
  cases v <;> first | exact .ok _ | exact .error trivial

theorem common_asPair : CommonIn (v.asPair what) := by
  unfold asPair
  split
  · exact .bind (common_asNumber _ what) fun _ => .bind (common_asNumber _ what) fun _ => .ok _
  · exact .error trivial

theorem common_asLayers : CommonIn (v.asLayers what) := by
  unfold asLayers
  split
  · exact .mapM (fun item => common_asText item what) _
  · exact .error trivial

theorem common_asShape : CommonIn (v.asShape what) := by
  refine .bind (common_asText v what) fun tag => ?_
  split
  · exact .ok _
  · exact .error trivial

theorem common_asDatum (sort : Datum.Sort) (field : String) : CommonIn (v.asDatum sort field) := by
  cases sort with
  | number => exact .map (common_asNumber v field)
  | flag => exact .map (common_asBool v field)
  | text => exact .map (common_asText v field)
  | pad => exact .map (common_asPadName v field)
  | shape => exact .map (common_asShape v field)
  | layers => exact .map (common_asLayers v field)

/-! ## Operators -/

theorem common_negate : CommonIn v.negate := by
  unfold negate
  split
  · split
    · exact .ok _
    · exact .error trivial
  · exact .ok _
  · exact .error trivial

variable (w : Value)

theorem common_arithmetic (op : Script.BinaryOp) (onInts : Int → Int → Int)
    (onFloats : Float → Float → Float) : CommonIn (arithmetic op onInts onFloats v w) := by
  unfold arithmetic
  split
  · split
    · exact .ok _
    · exact .error trivial
  · split
    · exact .ok _
    · exact .error trivial

theorem common_divide : CommonIn (v.divide w) := by
  unfold divide
  split
  · exact .ite (.error trivial) (.ok _)
  · exact .error trivial

theorem common_modulo : CommonIn (v.modulo w) := by
  unfold modulo
  split
  · exact .ite (.error trivial) (.ite (.error trivial) (.ok _))
  · split
    · exact .ite (.error trivial) (.ok _)
    · exact .error trivial

theorem common_order (op : Script.BinaryOp) : CommonIn (order op v w) := by
  unfold order
  split
  · exact .ok _
  · split
    · exact .ok _
    · exact .error trivial

theorem common_readIndex (index : Int) : CommonIn (v.readIndex index) := by
  unfold readIndex
  split
  · split
    · exact .ok _
    · exact .error trivial
  · split
    · exact .ok _
    · exact .error trivial
  · split
    · exact .ok _
    · exact .error trivial
  · exact .error trivial

end Value

theorem Element.common_write (e : Element) (field : String) (v : Value) :
    CommonIn (e.write field v) := by
  unfold Element.write
  refine .ite (.error trivial) ?_
  dsimp only
  split
  · exact .error trivial
  · refine .bind (v.common_asDatum _ field) fun datum => ?_
    split
    · exact .ok _
    · exact .error trivial

/-! ## Arguments -/

namespace Arguments

variable (args : Arguments) (callee : String)

theorem common_addKeyword (name : String) (v : Value) : CommonIn (args.addKeyword name v) :=
  .ite (.error trivial) (.ok _)

theorem common_unnamed : CommonIn (args.unnamed callee) := by
  unfold unnamed
  split
  · exact .ok _
  · exact .error trivial

theorem common_only : CommonIn (args.only callee) := by
  refine .bind (args.common_unnamed callee) fun values => ?_
  split
  · exact .ok _
  · exact .error trivial

theorem common_onlyOfMethod : CommonIn (args.onlyOfMethod callee) := by
  refine .bind (args.common_unnamed callee) fun values => ?_
  split
  · exact .ok _
  · exact .error trivial

theorem common_noneOfMethod : CommonIn (args.noneOfMethod callee) := by
  refine .bind (args.common_unnamed callee) fun values => ?_
  split
  · exact .ok _
  · exact .error trivial

end Arguments

theorem Bound.common_withKeywords (params : List String) (bound : Bound)
    (keywords : List (String × Value)) : CommonIn (bound.withKeywords params keywords) := by
  induction keywords generalizing bound with
  | nil => exact .ok _
  | cons entry rest ih => exact .ite (.error trivial) (.ite (.error trivial) (ih _))

theorem Bound.common_require (bound : Bound) (param : String) :
    CommonIn (bound.require param) := by
  unfold Bound.require
  split
  · exact .ok _
  · exact .error trivial

theorem Arguments.common_bind (args : Arguments) (callee : String) (params : List String) :
    CommonIn (args.bind callee params) :=
  .ite (.error trivial) (Bound.common_withKeywords params _ _)

namespace Binding

variable {α β : Type}

/-- Whatever is bound, reading refuses with common refusals only. -/
def Common (reading : Binding α) : Prop := ∀ bound, CommonIn (reading bound)

theorem Common.pure (value : α) : Common (pure value) := fun _ => .ok _

theorem Common.bind {reading : Binding α} {next : α → Binding β} (h : Common reading)
    (hn : ∀ value, Common (next value)) : Common (reading >>= next) :=
  fun bound => .bind (h bound) fun found => hn found.1 found.2

theorem Common.lift {step : Except Refusal α} (h : CommonIn step) :
    Common (liftM step : Binding α) :=
  fun _ => .bind h fun _ => .ok _

theorem common_get : Common (get : Binding Bound) := fun _ => .ok _

theorem common_set (bound : Bound) : Common (set bound : Binding PUnit) := fun _ => .ok _

theorem common_required {read : Value → String → Except Refusal α} (param : String)
    (h : ∀ v what, CommonIn (read v what)) : Common (required param read) :=
  .bind common_get fun bound => .bind (.lift (bound.common_require param)) fun found =>
    .bind (common_set found.2) fun _ => .lift (h found.1 param)

theorem common_optional {read : Value → String → Except Refusal α} (param : String)
    (h : ∀ v what, CommonIn (read v what)) : Common (optional param read) := by
  refine .bind common_get fun bound => .bind (common_set _) fun _ => ?_
  split
  · exact .pure _
  · exact .bind (.lift (h _ param)) fun _ => .pure _

theorem common_foldl {γ : Type} {step : α → γ → Binding α} (start : α) (items : List γ)
    (h : ∀ done item, Common (step done item)) : Common (items.foldlM step start) := by
  induction items generalizing start with
  | nil => exact .pure _
  | cons item rest ih => exact .bind (h start item) fun done => ih done

theorem common_run {reading : Binding α} (h : Common reading) (args : Arguments)
    (callee : String) (params : List String) : CommonIn (run reading args callee params) :=
  .bind (args.common_bind callee params) fun bound => .bind (h bound) fun _ => .ok _

end Binding

theorem Evaluation.common_bindParams (function : Script.Function) (args : Arguments) :
    CommonIn (bindParams function args) :=
  Binding.common_run (Binding.common_foldl _ _ fun _ param =>
    .bind (Binding.common_required param fun _ _ => .ok _) fun _ => .pure _) _ _ _

/-! ## The vocabulary -/

namespace Builtin

open Binding (Common common_required common_optional common_run)

variable (args : Arguments)

theorem common_writeLeftover (e : Element) : Common (writeLeftover e) :=
  .bind (.bind Binding.common_get fun _ => .pure _) fun entries =>
    Binding.common_foldl e entries fun done entry => .lift (done.common_write entry.1 entry.2)

theorem common_makeRect (kind : RectKind) : CommonIn (makeRect kind args) :=
  common_run (.bind (common_required _ Value.common_asNumber) fun _ =>
    .bind (common_required _ Value.common_asNumber) fun _ => common_writeLeftover _) _ _ _

theorem common_makeLine : CommonIn (makeLine args) :=
  common_run (.bind (common_required _ Value.common_asPair) fun _ =>
    .bind (common_required _ Value.common_asPair) fun _ => common_writeLeftover _) _ _ _

theorem common_makeCaption (kind : CaptionKind) : CommonIn (makeCaption kind args) := by
  have hrequired := common_required "txt" Value.common_asText
  have hoptional := common_optional "txt" Value.common_asText
  cases kind with
  | reference =>
    exact common_run (.bind hoptional fun _ => .bind (.pure _) fun _ => common_writeLeftover _) _ _ _
  | text => exact common_run (.bind hrequired fun _ => common_writeLeftover _) _ _ _
  | name => exact common_run (.bind hrequired fun _ => common_writeLeftover _) _ _ _

theorem common_makeSmd : CommonIn (makeSmd args) := by
  refine common_run (.bind (common_required _ Value.common_asPadName) fun _ =>
    .bind (common_required _ Value.common_asPair) fun _ =>
      .bind (common_optional _ Value.common_asPair) fun found => ?_) _ _ _
  cases found with
  | none => exact .bind (.pure _) fun _ => common_writeLeftover _
  | some position => exact .bind (.pure _) fun _ => common_writeLeftover _

theorem common_makeDrilled (bore : Bore) : CommonIn (makeDrilled bore args) :=
  common_run (.bind (common_required _ Value.common_asPadName) fun _ =>
    .bind (common_required _ Value.common_asNumber) fun _ =>
      .bind (common_required _ Value.common_asNumber) fun _ => common_writeLeftover _) _ _ _

theorem common_makeModel : CommonIn (makeModel args) :=
  common_run (.bind (common_required _ Value.common_asText) fun _ => .pure _) _ _ _

theorem common_asTemplate (v : Value) (what : String) : CommonIn (asTemplate v what) := by
  cases v <;> first | exact .ok _ | exact .error trivial

theorem common_asSharedName (v : Value) (what : String) : CommonIn (asSharedName v what) := by
  unfold asSharedName
  split
  · exact .ok _
  · exact .map (Value.common_asPadName _ what)

theorem common_progression (values : List Value) : CommonIn (Progression.ofValues values) := by
  have hint := Value.common_asInt
  unfold Progression.ofValues
  split
  · exact .bind (hint _ _) fun _ => .ok _
  · exact .bind (hint _ _) fun _ => .bind (hint _ _) fun _ => .ok _
  · exact .bind (hint _ _) fun _ => .bind (hint _ _) fun _ => .bind (hint _ _) fun _ => .ok _
  · exact .error trivial

theorem common_lengthOf : CommonIn (lengthOf args) := by
  refine .bind (args.common_only "len") fun v => ?_
  cases v <;> first | exact .ok _ | exact .error trivial

theorem common_absoluteOf : CommonIn (absoluteOf args) := by
  refine .bind (args.common_only "abs") fun v => ?_
  split
  · split
    · exact .ok _
    · exact .error trivial
  · exact .ok _
  · exact .error trivial

theorem common_extremeFrom (callee : String) (wanted : Ordering) (best : Value)
    (candidates : List Value) : CommonIn (extremeFrom callee wanted best candidates) := by
  induction candidates generalizing best with
  | nil => exact .ite (.ok _) (.error trivial)
  | cons candidate rest ih =>
    unfold extremeFrom
    split
    · exact ih _
    · exact .error trivial

theorem common_extremeOf (callee : String) (wanted : Ordering) :
    CommonIn (extremeOf callee wanted args) := by
  refine .bind (args.common_unnamed callee) fun values => ?_
  dsimp only
  split
  · exact .error trivial
  · exact common_extremeFrom callee wanted _ _

theorem common_intOf : CommonIn (intOf args) := by
  refine .bind (args.common_only "int") fun v => ?_
  split
  · exact .ok _
  · exact .ok _
  · split
    · exact .ok _
    · exact .error trivial
  · split
    · exact .ok _
    · exact .error trivial
  · exact .error trivial

theorem common_floatOf : CommonIn (floatOf args) := by
  refine .bind (args.common_only "float") fun v => ?_
  split
  · exact .ok _
  · exact .ok _
  · split
    · exact .ok _
    · exact .error trivial
  · exact .error trivial

end Builtin

theorem Method.common_callOnElement (e : Element) (method : String) (args : Arguments) :
    CommonIn (callOnElement e method args) := by
  have hplaced : CommonIn (placed e args) :=
    Binding.common_run (.bind (Binding.common_required _ Value.common_asPadName) fun _ =>
      .bind (Binding.common_required _ Value.common_asNumber) fun _ =>
        .bind (Binding.common_required _ Value.common_asNumber) fun _ => .pure _) _ _ _
  unfold callOnElement
  split
  · exact .bind hplaced fun _ => .ok _
  · exact .bind hplaced fun _ => .ok _
  · exact .bind (args.common_noneOfMethod _) fun _ => .ok _
  · exact .error trivial

end LandPattern
