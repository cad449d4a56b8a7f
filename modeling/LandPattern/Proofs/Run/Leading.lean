import LandPattern.Proofs.Run.Ensures
import LandPattern.Proofs.Run.Writes

/-!
# How a step leads from state to state

From the moment before a step to the one after it, the constants and the variables of all calls but
the innermost one stay, and so do those variables of the innermost call that the step does not write
to. Inside a block the variables of the block stand in front of those; the block is closed on every
way out, and they are gone.
-/

namespace LandPattern

open Script (Span)

/-- Every call has a block for its parameters. -/
def Moment.HasBlocks (moment : Moment) : Prop := ∀ locals ∈ moment.frames, locals.scopes ≠ []

/-- Every active call has a block for its parameters. -/
def Machine.HasBlocks (machine : Machine) : Prop := ∀ locals ∈ machine.frames, locals.scopes ≠ []

/-- One state is reached from another one, which is spared, through moments at which every call has
a block for its parameters. -/
structure Machine.Leads (written : String → Prop) (before after : Machine) : Prop
    extends before.Spares written after where
  history : ∀ moment, after.history moment → before.history moment ∨ moment.HasBlocks

/-- The innermost block is open; it has these names, and without it the state is led to. -/
def Machine.Inside (names : List String) (written : String → Prop) (before after : Machine) : Prop :=
  ∃ inner rest outer, after.frames = ⟨inner :: rest⟩ :: outer ∧
    (∀ name ∈ names, name ∈ inner.names) ∧
    before.Leads written { after with frames := ⟨rest⟩ :: outer }

namespace Machine

variable {written more : String → Prop} {before middle after : Machine}

namespace Leads

theorem refl (written : String → Prop) (machine : Machine) : machine.Leads written machine :=
  ⟨⟨rfl, .refl _ _⟩, fun _ => .inl⟩

theorem trans (h : before.Leads written middle) (ho : middle.Leads written after) :
    before.Leads written after := by
  refine ⟨⟨ho.globals.trans h.globals, h.frames.trans ho.frames⟩, fun moment hmoment => ?_⟩
  exact (ho.history moment hmoment).elim (h.history moment) .inr

theorem mono (h : before.Leads written after) (hw : ∀ name, written name → more name) :
    before.Leads more after :=
  ⟨⟨h.globals, h.frames.mono hw⟩, h.history⟩

theorem hasBlocks (h : before.Leads written after) (hb : before.HasBlocks) : after.HasBlocks := by
  obtain ⟨globals, frames, meter, moments⟩ := before
  obtain ⟨others, left, used, history⟩ := after
  have hframes : Locals.Spared written frames left := h.frames
  cases hframes with
  | idle => exact hb
  | innermost outer hscopes =>
    intro locals hlocals
    rcases List.mem_cons.1 hlocals with rfl | hold
    · exact hscopes.ne_nil (hb _ List.mem_cons_self)
    · exact hb _ (List.mem_cons_of_mem _ hold)

theorem withMeter (h : before.Leads written after) (meter : Meter) :
    before.Leads written (after.withMeter meter) := ⟨⟨h.globals, h.frames⟩, h.history⟩

/-- A moment at which every call has its block is noted. -/
theorem noted (h : before.Leads written after) (hb : before.HasBlocks) (value : Option Value) :
    before.Leads written (after.noted value) := by
  refine ⟨⟨h.globals, h.frames⟩, fun moment hmoment => ?_⟩
  rcases hmoment with rfl | hold
  · exact .inr (h.hasBlocks hb)
  · exact h.history moment hold

/-- A variable that is written to may change. -/
theorem set {locals : Locals} {outer : List Locals} {name : String}
    (h : before.Leads written after) (hb : before.HasBlocks) (hf : after.frames = locals :: outer)
    (hname : written name) (v : Value) :
    before.Leads written (after.withFrames (locals.set name v :: outer)) := by
  have hscopes : Locals.Spared written after.frames (locals.set name v :: outer) := by
    rw [hf]
    exact .innermost outer (.set locals.scopes hname v)
  have hnext : before.Leads written { after with frames := locals.set name v :: outer } :=
    ⟨⟨h.globals, h.frames.trans hscopes⟩, h.history⟩
  exact hnext.noted hb none

/-- A call is entered and left: its variables are gone, and those of its caller are as they were. -/
theorem call {params : Scope} (h : before.Leads written middle) (hb : before.HasBlocks)
    (ho : (middle.withFrames (Locals.ofParams params :: middle.frames)).Leads more after) :
    before.Leads written (after.withFrames after.frames.tail) := by
  have hbelow : after.frames.tail = middle.frames := by
    obtain ⟨globals, frames, meter, history⟩ := after
    have hframes : Locals.Spared more (Locals.ofParams params :: middle.frames) frames := ho.frames
    cases hframes with
    | innermost _ _ => rfl
  have hentered : ∀ locals ∈ Locals.ofParams params :: middle.frames, locals.scopes ≠ [] := by
    intro locals hlocals
    rcases List.mem_cons.1 hlocals with rfl | hold
    · exact List.cons_ne_nil _ _
    · exact h.hasBlocks hb locals hold
  have hleft : before.Leads written { after with frames := after.frames.tail } := by
    refine ⟨⟨ho.globals.trans h.globals, hbelow ▸ h.frames⟩, fun moment hmoment => ?_⟩
    rcases ho.history moment hmoment with (rfl | hold) | hblocks
    · exact .inr hentered
    · exact h.history moment hold
    · exact .inr hblocks
  exact hleft.noted hb none

end Leads

namespace Inside

variable {names : List String}

theorem hasBlocks (h : before.Inside names written after) (hb : before.HasBlocks) :
    after.HasBlocks := by
  obtain ⟨inner, rest, outer, hf, -, hleads⟩ := h
  intro locals hlocals
  rw [hf] at hlocals
  rcases List.mem_cons.1 hlocals with rfl | hold
  · exact List.cons_ne_nil _ _
  · exact hleads.hasBlocks hb locals (List.mem_cons_of_mem _ hold)

theorem withMeter (h : before.Inside names written after) (meter : Meter) :
    before.Inside names written (after.withMeter meter) := by
  obtain ⟨inner, rest, outer, hf, hnames, hleads⟩ := h
  exact ⟨inner, rest, outer, hf, hnames, hleads.withMeter meter⟩

/-- A block is opened. -/
theorem push {locals : Locals} {outer : List Locals} (h : before.Leads written after)
    (hb : before.HasBlocks) (hf : after.frames = locals :: outer) :
    before.Inside [] written (after.withFrames (locals.push :: outer)) := by
  refine ⟨[], locals.scopes, outer, rfl, fun _ hname => absurd hname List.not_mem_nil, ?_⟩
  have hsame : ({ after with frames := locals :: outer } : Machine) = after := by rw [← hf]
  have hinner : ∀ found ∈ locals.push :: outer, found.scopes ≠ [] := by
    intro found hfound
    rcases List.mem_cons.1 hfound with rfl | hold
    · exact List.cons_ne_nil _ _
    · exact h.hasBlocks hb found (by rw [hf]; exact List.mem_cons_of_mem _ hold)
  refine ⟨⟨h.globals, hf ▸ h.frames⟩, fun moment hmoment => ?_⟩
  rcases hmoment with rfl | hold
  · exact .inr hinner
  · exact h.history moment hold

/-- A block is closed. -/
theorem close (h : before.Inside names written after) (hb : before.HasBlocks) :
    before.Leads written (Evaluation.closeBlock after) := by
  obtain ⟨inner, rest, outer, hf, -, hleads⟩ := h
  obtain ⟨globals, frames, meter, history⟩ := after
  change frames = _ at hf
  subst hf
  have hrest : rest ≠ [] := hleads.hasBlocks hb ⟨rest⟩ List.mem_cons_self
  obtain ⟨scope, others, rfl⟩ := List.exists_cons_of_ne_nil hrest
  exact hleads.noted hb none

/-- A variable is declared in the innermost block. -/
theorem declare {locals : Locals} {outer : List Locals} (h : before.Inside names written after)
    (hb : before.HasBlocks) (hf : after.frames = locals :: outer) (name : String) (v : Value) :
    before.Inside (name :: names) written
      (after.withFrames (locals.declare name v :: outer)) := by
  obtain ⟨inner, rest, below, hopen, hnames, hleads⟩ := h
  obtain ⟨rfl, rfl⟩ := List.cons.inj (hf.symm.trans hopen)
  have hfound : ∀ other ∈ name :: names, other ∈ (inner.declare name v).names := by
    intro other hother
    exact Scope.mem_names_declare v ((List.mem_cons.1 hother).imp_right (hnames other))
  refine ⟨inner.declare name v, rest, outer, rfl, hfound, ⟨⟨hleads.globals, hleads.frames⟩, ?_⟩⟩
  intro moment hmoment
  rcases hmoment with rfl | hold
  · refine .inr fun found hin => ?_
    rcases List.mem_cons.1 hin with rfl | hold
    · exact List.cons_ne_nil _ _
    · exact hleads.hasBlocks hb found (List.mem_cons_of_mem _ hold)
  · exact hleads.history moment hold

theorem forget {fewer : List String} (h : before.Inside names written after)
    (hn : ∀ name ∈ fewer, name ∈ names) : before.Inside fewer written after := by
  obtain ⟨inner, rest, outer, hf, hnames, hleads⟩ := h
  exact ⟨inner, rest, outer, hf, fun name hname => hnames name (hn name hname), hleads⟩

/-- What is written to is either a variable of the innermost block or outside of it. -/
theorem trans (h : before.Inside names written middle) (ho : middle.Leads more after)
    (hw : ∀ name, more name → name ∈ names ∨ written name) : before.Inside names written after := by
  obtain ⟨inner, rest, outer, hf, hnames, hleads⟩ := h
  obtain ⟨globals, frames, meter, history⟩ := after
  have hspared : Locals.Spared more (⟨inner :: rest⟩ :: outer) frames := hf ▸ ho.frames
  cases hspared with
  | @innermost _ left _ hscopes =>
    obtain ⟨scopes⟩ := left
    have hcons : Scope.Spared more (inner :: rest) scopes := hscopes
    cases hcons with
    | @cons _ _ left _ others hsame _ hrest =>
      have hfound : ∀ name ∈ names, name ∈ left.names := fun name hname => by
        rw [hsame]
        exact hnames name hname
      have houter : Scope.Spared written rest others := hrest.mono fun name hname =>
        (hw name hname.1).resolve_left fun hin => hname.2 (hnames name hin)
      refine ⟨left, others, outer, rfl, hfound, ⟨⟨?_, ?_⟩, fun moment hmoment => ?_⟩⟩
      · exact ho.globals.trans hleads.globals
      · exact hleads.frames.trans (.innermost outer houter)
      · exact (ho.history moment hmoment).elim (hleads.history moment) .inr

end Inside

end Machine

namespace Act

variable {ρ σ α β : Type} {context : ρ} {state after : σ}

/-- What ends with a result has gone through its first step to a fine state. -/
theorem Ensures.exists_of_bind_ok {fine : σ → Prop} {promise : α → Prop} {act : Act ρ σ α}
    {next : α → Act ρ σ β} {result : β} (h : Ensures context fine act promise) (hs : fine state)
    (hrun : (act >>= next).outcome context state = (.ok result, after)) :
    ∃ value middle, fine middle ∧ (next value).outcome context middle = (.ok result, after) := by
  have hact := (h state hs).1
  rcases hfirst : act.outcome context state with ⟨first, middle⟩
  rw [hfirst] at hact
  cases first with
  | ok value => exact ⟨value, middle, hact, (outcome_bind_ok _ _ hfirst next).symm.trans hrun⟩
  | error fault =>
    rw [outcome_bind_error _ _ hfirst] at hrun
    cases hrun

end Act

namespace Evaluation

variable {context : Context} {α β : Type} {promise : α → Prop} {before : Machine}
variable {written more : String → Prop} {names : List String}

/-- A step that leaves a state alone but for what is written, with a result as promised. -/
abbrev Leads (context : Context) (written : String → Prop) (before : Machine)
    (act : Evaluation α) (promise : α → Prop) : Prop :=
  Act.Ensures context (before.Leads written) act promise

/-- A step that does so inside a block with these names. -/
abbrev Inside (context : Context) (names : List String) (written : String → Prop)
    (before : Machine) (act : Evaluation α) (promise : α → Prop) : Prop :=
  Act.Ensures context (before.Inside names written) act promise

theorem exists_of_counted_ok {act : Evaluation α} {machine after : Machine} {result : α}
    (h : (counted act).outcome context machine = (.ok result, after)) :
    ∃ ended, act.outcome context (machine.withMeter machine.meter.begin) = (.ok result, ended) ∧
      ended.withMeter ended.meter.finish = after :=
  ⟨_, Prod.ext (Prod.mk.inj h).1 rfl, (Prod.mk.inj h).2⟩

theorem leads_any (act : Metered α) : Leads context written before (ofMetered act) fun _ => True :=
  ensures_ofMetered (fun _ meter h => h.withMeter meter) (Metered.yields_any act)

theorem leads_counted {act : Evaluation α} (h : Leads context written before act promise) :
    Leads context written before (counted act) promise :=
  ensures_counted (fun _ meter h => h.withMeter meter) h

theorem inside_counted {act : Evaluation α} (h : Inside context names written before act promise) :
    Inside context names written before (counted act) promise :=
  ensures_counted (fun _ meter h => h.withMeter meter) h

theorem inside_any (act : Metered α) :
    Inside context names written before (ofMetered act) fun _ => True :=
  ensures_ofMetered (fun _ meter h => h.withMeter meter) (Metered.yields_any act)

/-- What leaves every state alone can be done inside a block, which may own what is written. -/
theorem inside_of_leads {act : Evaluation α} (hb : before.HasBlocks)
    (hw : ∀ name, more name → name ∈ names ∨ written name)
    (h : ∀ machine : Machine, machine.HasBlocks → Leads context more machine act promise) :
    Inside context names written before act promise := by
  intro machine hmachine
  have hact := h machine (hmachine.hasBlocks hb) machine (.refl more machine)
  exact ⟨hmachine.trans hact.1 hw, hact.2⟩

theorem leads_collected (length : Nat) {items : Evaluation (List Value)}
    (h : Leads context written before items fun _ => True) :
    Leads context written before (collected length items) fun _ => True :=
  .bind (leads_any _) fun _ _ => .bind h fun _ _ => leads_any _

theorem leads_iterated (span : Span) (v : Value) :
    Leads context written before (iterated span v) fun _ => True :=
  (ensures_iterated span v).weaken fun _ _ => trivial

section Steps

variable (hb : before.HasBlocks)

include hb

theorem leads_noting {act : Evaluation Value}
    (h : Leads context written before act fun _ => True) :
    Leads context written before (noting act) fun _ => True :=
  .bind h fun v _ => .bind (.modify fun _ hmachine => hmachine.noted hb (some v)) fun _ _ =>
    .pure trivial

theorem leads_updatePlace {place : Place} (hw : written place.root)
    (write : Value → Metered (Value × α)) :
    Leads context written before (updatePlace place write) fun _ => True := by
  refine .bind (ensures_consult fun _ _ _ _ => trivial) fun found _ => ?_
  cases found with
  | none => exact .bind (ensures_consult fun _ _ _ _ => trivial) fun _ _ => .fault _
  | some root =>
    refine .bind (leads_any _) fun made _ => .bind (ensures_modifyLocals ?_) fun _ _ => .pure trivial
    exact fun machine locals outer hf hmachine => hmachine.set hb hf hw made.1

/-- A block is opened and closed around a step. -/
theorem leads_inBlock {act : Evaluation α} (h : Inside context [] written before act promise) :
    Leads context written before (inBlock act) promise := by
  intro machine hmachine
  obtain ⟨globals, frames, meter, history⟩ := machine
  cases frames with
  | nil => exact ⟨hmachine, fun _ heq => (by cases heq)⟩
  | cons locals outer =>
    have hact := h _ (.push hmachine hb rfl)
    exact ⟨hact.1.close hb, hact.2⟩

/-- What follows a declaration finds its name in the innermost block. -/
theorem inside_declare {next : Unit → Evaluation β} {outcome : β → Prop} (name : String) (v : Value)
    (h : Inside context (name :: names) written before (next ()) outcome) :
    Inside context names written before
      (modifyLocals (fun locals => locals.declare name v) >>= next) outcome := by
  intro machine hmachine
  obtain ⟨globals, frames, meter, history⟩ := machine
  cases frames with
  | nil => exact ⟨hmachine, fun _ heq => (by cases heq)⟩
  | cons locals outer =>
    have hnext := h _ (hmachine.declare hb rfl name v)
    exact ⟨hnext.1.forget fun _ => List.mem_cons_of_mem _, hnext.2⟩

end Steps

end Evaluation

end LandPattern
