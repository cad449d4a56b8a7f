import LandPattern.Proofs.Run.Writes
import LandPattern.Proofs.Values.Following

/-!
# Steps of an evaluation at a later moment

What a machine stores at a later moment are the same constants and variables with later stamps, or
related ones: how the variables of the active calls are related is left open. A step follows, if they
have the same values in the variables that it names and are written to alike.
-/

namespace LandPattern

open Script (Argument Expr Function Span)

/-! ## Variables with other stamps -/

namespace Locals

variable (f : Nat → Nat) (locals : Locals) (name : String)

/-- The variables of a call with other stamps. -/
def restamp : Locals := ⟨locals.scopes.map (Scope.restamp f)⟩

theorem get?_restamp : (locals.restamp f).get? name = (locals.get? name).map (Value.restamp f) := by
  obtain ⟨scopes⟩ := locals
  induction scopes with
  | nil => rfl
  | cons scope outer ih =>
    simp only [get?, restamp, List.map_cons, List.findSome?_cons, Scope.lookup_restamp] at ih ⊢
    cases scope.lookup name with
    | some v => rfl
    | none => exact ih

theorem set_restamp (v : Value) :
    (locals.set name v).restamp f = (locals.restamp f).set name (v.restamp f) := by
  obtain ⟨scopes⟩ := locals
  have hgo : (set.go name v scopes).map (Scope.restamp f) =
      set.go name (v.restamp f) (scopes.map (Scope.restamp f)) := by
    induction scopes with
    | nil => rfl
    | cons scope outer ih =>
      simp only [set.go, List.map_cons, Scope.lookup_restamp, Option.isSome_map]
      split
      · rw [List.map_cons, Scope.declare_restamp]
      · rw [List.map_cons, ih]
  exact congrArg Locals.mk hgo

theorem declare_restamp (v : Value) :
    (locals.declare name v).restamp f = (locals.restamp f).declare name (v.restamp f) := by
  obtain ⟨scopes⟩ := locals
  cases scopes with
  | nil => rfl
  | cons inner outer =>
    simp only [declare, restamp, List.map_cons, Scope.declare_restamp]

theorem push_restamp : locals.push.restamp f = (locals.restamp f).push := rfl

theorem pop_restamp : locals.pop.restamp f = (locals.restamp f).pop := by
  obtain ⟨scopes⟩ := locals
  rcases scopes with _ | ⟨inner, _ | ⟨outer, rest⟩⟩ <;> rfl

end Locals

/-- The flow with other stamps. -/
def Flow.restamp (f : Nat → Nat) : Flow → Flow
  | .next => .next
  | .giveBack v => .giveBack (v.restamp f)

/-! ## Machines -/

namespace Delay

variable (delay : Delay)

/-- The machine at the later moment. The constants stay as they are; `near` is how the variables of
the active calls are related. -/
structure Machines (near : List Locals → List Locals → Prop) (globals : Scope)
    (machine later : Machine) : Prop where
  meters : delay.Meters machine.meter later.meter
  constants : machine.globals = globals
  moved : later.globals = globals.restamp delay.stamp
  frames : near machine.frames later.frames

/-- Machines are held against one another as far as the count of stamps is followed. -/
abbrev machineLag : Act.Lag Machine :=
  ⟨fun machine => delay.counts machine.meter.nextStamp, 0 < delay.operations⟩

/-- In related variables the known names have the same values up to their later stamps, and these may
be written to in both. -/
structure Links (near : List Locals → List Locals → Prop) (known : String → Prop) : Prop where
  nil {others : List Locals} (h : near [] others) : others = []
  get? {frames others : List Locals} {name : String} (h : near frames others)
    (hk : known name) : (others.head?.bind fun locals => locals.get? name) =
      (frames.head?.bind fun locals => locals.get? name).map delay.value
  set {locals : Locals} {outer others : List Locals} (h : near (locals :: outer) others) :
    ∃ found rest, others = found :: rest ∧ ∀ name v, known name →
      near (locals.set name v :: outer) (found.set name (delay.value v) :: rest)

/-- The innermost call has the same variables up to their later stamps, those of the calls around it
are related. -/
def Called (near : List Locals → List Locals → Prop) (frames others : List Locals) : Prop :=
  ∃ locals outer rest, frames = locals :: outer ∧ others = locals.restamp delay.stamp :: rest ∧
    near outer rest

theorem links_called (near : List Locals → List Locals → Prop) :
    delay.Links (delay.Called near) fun _ => True where
  nil h := by
    obtain ⟨_, _, _, heq, -⟩ := h
    cases heq
  get? h _ := by
    obtain ⟨locals, outer, rest, rfl, rfl, -⟩ := h
    exact Locals.get?_restamp _ locals _
  set h := by
    obtain ⟨locals, outer, rest, heq, rfl, hnear⟩ := h
    cases heq
    exact ⟨_, _, rfl, fun name v _ => ⟨_, _, _, rfl, by rw [Locals.set_restamp], hnear⟩⟩

end Delay

namespace Evaluation

variable {delay : Delay} {context : Context} {near : List Locals → List Locals → Prop}
  {globals : Scope} {known : String → Prop} {α β : Type} {change : α → α}

/-- The later step follows the step by a delay. -/
abbrev Follows (delay : Delay) (context : Context) (near : List Locals → List Locals → Prop)
    (globals : Scope) (change : α → α) (act later : Evaluation α) : Prop :=
  Act.Follows context delay.machineLag (delay.Machines near globals) (delay.Machines near globals)
    change act later

theorem follows_ofMetered {act later : Metered α}
    (h : Metered.Follows delay context.limits change act later) :
    Follows delay context near globals change (ofMetered act) (ofMetered later) := by
  refine ⟨fun machine => h.earlier machine.meter, fun machine other hnear hscope => ?_⟩
  have hact := h.ends machine.meter other.meter hnear.meters hscope
  rw [ofMetered, ofMetered, Act.outcome_ofOutcome, Act.outcome_ofOutcome]
  generalize act.outcome context.limits machine.meter = ended at hact ⊢
  generalize later.outcome context.limits other.meter = endedLater at hact ⊢
  rcases ended with ⟨value | value, reached⟩ <;> rcases endedLater with ⟨found | found, met⟩
  · trivial
  · exact hact
  · exact hact
  · exact ⟨hact.1, hact.2, hnear.constants, hnear.moved, hnear.frames⟩

theorem follows_refuseAt (span : Span) (why other : Refusal) :
    Follows delay context near globals change (refuseAt span why) (refuseAt span other) := .fault _ _

theorem follows_locating (span : Span) {act later : Evaluation α}
    (h : Follows delay context near globals change act later) :
    Follows delay context near globals change (locating span act) (locating span later) :=
  .mapFault (fun fault => fault.cause_locate span) h

theorem follows_counted {act later : Evaluation α}
    (h : Follows delay context near globals change act later) :
    Follows delay context near globals change (counted act) (counted later) := by
  refine .bind (.modify (fun _ => id) fun machine other hnear _ => ?_) fun _ =>
    .closing (fun _ => id) (fun machine other hnear => ?_) h
  -- the steps that are active are counted, and nothing that is compared
  all_goals
    have hmeters := hnear.meters
    exact ⟨⟨hmeters.first, hmeters.stamps, hmeters.least, hmeters.operations⟩, hnear.constants,
      hnear.moved, hnear.frames⟩

theorem follows_noting {act later : Evaluation Value}
    (h : Follows delay context near globals delay.value act later) :
    Follows delay context near globals delay.value (noting act) (noting later) :=
  .bind h fun _ => .bind (.modify (fun _ => id) fun _ _ hnear _ =>
    ⟨hnear.meters, hnear.constants, hnear.moved, hnear.frames⟩) fun _ => .pure rfl

theorem follows_consult
    {look : (String → Option Function) → Scope → Option Locals → Except Refusal α}
    (h : ∀ frames others, near frames others →
      look context.function? (globals.restamp delay.stamp) others.head? =
        (look context.function? globals frames.head?).map change) :
    Follows delay context near globals change (consult look) (consult look) := by
  constructor
  · intro machine
    simp only [consult, Act.outcome_bind, Act.outcome_read, Act.outcome_get]
    cases look context.function? machine.globals machine.frames.head? <;> exact id
  · intro machine other hnear _
    have hlook := h machine.frames other.frames hnear.frames
    simp only [consult, Act.outcome_bind, Act.outcome_read, Act.outcome_get, hnear.constants,
      hnear.moved, hlook]
    cases look context.function? globals machine.frames.head? with
    | error why => trivial
    | ok value => exact ⟨rfl, hnear⟩

theorem follows_modifyLocals {after : List Locals → List Locals → Prop}
    {move moved : Locals → Locals} (hnil : ∀ others, near [] others → others = [])
    (h : ∀ locals outer others, near (locals :: outer) others →
      ∃ found rest, others = found :: rest ∧ after (move locals :: outer) (moved found :: rest)) :
    Act.Follows context delay.machineLag (delay.Machines near globals)
      (delay.Machines after globals) id (modifyLocals move) (modifyLocals moved) := by
  constructor
  · intro machine
    rcases machine with ⟨_, _ | ⟨locals, outer⟩, _, _⟩ <;> exact id
  · intro machine other hnear _
    obtain ⟨own, frames, meter, history⟩ := machine
    obtain ⟨others, laterFrames, laterMeter, laterHistory⟩ := other
    cases frames with
    | nil =>
      obtain rfl := hnil laterFrames hnear.frames
      trivial
    | cons locals outer =>
      obtain ⟨found, rest, rfl, hafter⟩ := h locals outer laterFrames hnear.frames
      exact ⟨rfl, hnear.meters, hnear.constants, hnear.moved, hafter⟩

theorem follows_lookup (hl : delay.Links near known) {name : String} (hk : known name) :
    Follows delay context near globals delay.value (lookup name) (lookup name) := by
  refine follows_consult fun frames others hnear => ?_
  rw [hl.get? hnear hk, Scope.lookup_restamp]
  cases frames.head?.bind fun locals => locals.get? name with
  | some v => rfl
  | none =>
    cases globals.lookup name with
    | some v => rfl
    | none =>
      dsimp only [Option.map_none]
      split
      · rfl
      · cases Builtin.ofName? name <;> rfl

theorem follows_truth (what : String) (span : Span) (v : Value) :
    Follows delay context near globals id (truth what span v)
      (truth what span (delay.value v)) := by
  cases v with
  | bool b => exact .pure rfl
  | _ => exact follows_refuseAt _ _ _

theorem follows_position (span : Span) (v : Value) :
    Follows delay context near globals id (position span v) (position span (delay.value v)) := by
  cases v with
  | int n => exact .pure rfl
  | _ => exact follows_refuseAt _ _ _

theorem follows_iterated (span : Span) (v : Value) :
    Follows delay context near globals (List.map delay.value) (iterated span v)
      (iterated span (delay.value v)) := by
  unfold iterated
  rw [Value.sequence?_restamp]
  cases v.sequence? with
  | none => exact follows_refuseAt _ _ _
  | some s => exact .pure rfl

theorem follows_collected (length : Nat) {items later : Evaluation (List Value)}
    (h : Follows delay context near globals (List.map delay.value) items later) :
    Follows delay context near globals delay.sequence (collected length items)
      (collected length later) := by
  refine .bind (follows_ofMetered (Metered.follows_checkLength _)) fun _ => .bind h fun values =>
    follows_ofMetered ?_
  exact .bind (Metered.follows_sequence values) fun s =>
    .bind (Metered.follows_checkSequence s) fun _ => .pure rfl

theorem follows_updatePlace (hl : delay.Links near known) {place : Place}
    (hk : known place.root) {write later : Value → Metered (Value × α)}
    (hw : ∀ old, Metered.Follows delay context.limits (Prod.map delay.value change) (write old)
      (later (delay.value old))) :
    Follows delay context near globals change (updatePlace place write)
      (updatePlace place later) := by
  have hlocal : Follows delay context near globals (Option.map delay.value) (local? place.root)
      (local? place.root) :=
    follows_consult fun frames others hnear => by rw [hl.get? hnear hk]; rfl
  have hwhy : Follows delay context near globals id (notWritable place.root)
      (notWritable place.root) := by
    refine follows_consult fun frames others _ => ?_
    rw [Scope.lookup_restamp, Option.isSome_map]
    split
    · rfl
    · split <;> rfl
  refine .bind hlocal fun found => ?_
  cases found with
  | none => exact .bind hwhy fun _ => follows_refuseAt _ _ _
  | some root =>
    refine .bind (follows_ofMetered (Metered.follows_updateWithin hw root place.steps)) fun written =>
      .bind (follows_modifyLocals (fun _ => hl.nil) fun locals outer others hnear => ?_) fun _ =>
        .pure rfl
    obtain ⟨found, rest, rfl, hset⟩ := hl.set hnear
    exact ⟨found, rest, rfl, hset place.root written.1 hk⟩

theorem follows_store (hl : delay.Links near known) {place : Place} (hk : known place.root)
    (op : Script.AssignOp) (v : Value) :
    Follows delay context near globals id (store place op v) (store place op (delay.value v)) :=
  follows_updatePlace hl hk fun old => .bind (Metered.follows_assigned op old v) fun _ => .pure rfl

theorem follows_rounds (each : Rounds) {body later : Value → Evaluation Flow}
    (h : ∀ item, Follows delay context near globals (Flow.restamp delay.stamp) (body item)
      (later (delay.value item))) (items : List Value) :
    Follows delay context near globals (Flow.restamp delay.stamp) (rounds each body items)
      (rounds each later (items.map delay.value)) := by
  induction items with
  | nil => exact .pure rfl
  | cons item rest ih =>
    refine .bind (follows_ofMetered (Metered.follows_countRounds each)) fun _ =>
      .bind (h item) fun flow => ?_
    cases flow with
    | giveBack v => exact .pure rfl
    | next => exact ih

/-! ## Blocks and calls -/

/-- The variables of the innermost call, when they stay the same up to their later stamps. -/
theorem follows_changeLocals {move moved : Locals → Locals}
    (h : ∀ locals, (move locals).restamp delay.stamp = moved (locals.restamp delay.stamp)) :
    Follows delay context (delay.Called near) globals id (modifyLocals move)
      (modifyLocals moved) := by
  refine follows_modifyLocals (fun _ => (delay.links_called near).nil) fun locals outer others hnear => ?_
  obtain ⟨_, _, rest, heq, rfl, hrest⟩ := hnear
  cases heq
  exact ⟨_, rest, rfl, _, _, rest, rfl, by rw [h], hrest⟩

theorem follows_inBlock {act later : Evaluation α}
    (h : Follows delay context (delay.Called near) globals change act later) :
    Follows delay context (delay.Called near) globals change (inBlock act) (inBlock later) := by
  refine .bind (follows_changeLocals fun locals => locals.push_restamp delay.stamp) fun _ =>
    .closing (fun machine => ?_) (fun machine other hnear => ?_) h
  · rcases machine with ⟨_, _ | ⟨locals, outer⟩, _, _⟩ <;> exact id
  · obtain ⟨own, frames, meter, history⟩ := machine
    obtain ⟨others, laterFrames, laterMeter, laterHistory⟩ := other
    obtain ⟨locals, outer, rest, hframes, hlater, hrest⟩ := hnear.frames
    cases hframes
    cases hlater
    have hpop : (locals.restamp delay.stamp).pop :: rest = locals.pop.restamp delay.stamp :: rest :=
      congrArg (· :: rest) (locals.pop_restamp delay.stamp).symm
    exact ⟨hnear.meters, hnear.constants, hnear.moved, _, _, rest, rfl, hpop, hrest⟩

theorem follows_inCall (params : Scope) {act later : Evaluation α}
    (h : Follows delay context (delay.Called near) globals change act later) :
    Follows delay context near globals change (inCall (Locals.ofParams params) act)
      (inCall (Locals.ofParams (params.restamp delay.stamp)) later) := by
  have hopened : Act.Follows context delay.machineLag (delay.Machines near globals)
      (delay.Machines (delay.Called near) globals) id
      (modify fun machine => machine.withFrames (Locals.ofParams params :: machine.frames) :
        Evaluation Unit)
      (modify fun machine => machine.withFrames
        (Locals.ofParams (params.restamp delay.stamp) :: machine.frames)) :=
    .modify (fun _ => id) fun machine other hnear _ =>
      ⟨hnear.meters, hnear.constants, hnear.moved, _, _, _, rfl, rfl, hnear.frames⟩
  refine .bind hopened fun _ => .closing (fun _ => id) (fun machine other hnear => ?_) h
  obtain ⟨own, frames, meter, history⟩ := machine
  obtain ⟨others, laterFrames, laterMeter, laterHistory⟩ := other
  obtain ⟨locals, outer, rest, hframes, hlater, hrest⟩ := hnear.frames
  cases hframes
  cases hlater
  exact ⟨hnear.meters, hnear.constants, hnear.moved, hrest⟩

end Evaluation

end LandPattern
