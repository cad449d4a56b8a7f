import LandPattern.Proofs.Run.Contents
import LandPattern.Proofs.Run.Following

/-!
# Stamps that were given

Every stamp in a constant or a variable was given by the meter before. A step leads from such a state
to such a state, so that what is built later shares its items with nothing that is stored. The proof
holds a step against itself, under a delay that changes exactly the stamps that were not given yet.
-/

namespace LandPattern

open Script (Expr Item Span Stmt)

/-! ## Values without changed stamps -/

section

variable {bound : Nat} {f : Nat → Nat}

theorem Scope.restamp_eq_self (hf : ∀ stamp, stamp < bound → f stamp = stamp) {scope : Scope}
    (h : scope.All (Value.StampedBelow bound)) : scope.restamp f = scope := by
  refine (List.map_congr_left fun entry hentry => ?_).trans (List.map_id scope)
  exact Prod.ext rfl (Value.restamp_eq_self hf entry.2 (h entry hentry))

theorem Locals.restamp_eq_self (hf : ∀ stamp, stamp < bound → f stamp = stamp) {locals : Locals}
    (h : locals.All (Value.StampedBelow bound)) : locals.restamp f = locals := by
  obtain ⟨scopes⟩ := locals
  refine congrArg Locals.mk ((List.map_congr_left fun scope hscope => ?_).trans (List.map_id scopes))
  exact Scope.restamp_eq_self hf (h scope hscope)

/-- Stamps that are not changed are below the bound from which on all are changed. -/
theorem Value.stampedBelow_of_restamp (hf : ∀ stamp, f stamp = stamp → stamp < bound) {v : Value}
    (h : v.restamp f = v) : v.StampedBelow bound := by
  intro part s hpart hs
  have hown {w : Value} {t : Sequence Value} (hw : w.restamp f = w) (ht : w.sequence? = some t) :
      t.restamp f = t := by
    have hsame : (w.restamp f).sequence? = some t := by rw [hw, ht]
    rw [Value.sequence?_restamp, ht] at hsame
    exact Option.some.inj hsame
  induction hpart with
  | self => exact hf s.stamp (congrArg Sequence.stamp (hown h hs))
  | item ht hi _ ih =>
    have hitems := (congrArg Sequence.items (hown h ht)).trans (List.map_id _).symm
    exact ih (List.map_inj_left.1 hitems _ hi)

theorem Scope.stampedBelow_of_restamp (hf : ∀ stamp, f stamp = stamp → stamp < bound)
    {scope : Scope} (h : scope.restamp f = scope) : scope.All (Value.StampedBelow bound) := by
  intro entry hentry
  have hsame := List.map_inj_left.1 (h.trans (List.map_id scope).symm) entry hentry
  exact Value.stampedBelow_of_restamp hf (congrArg Prod.snd hsame)

theorem Locals.stampedBelow_of_restamp (hf : ∀ stamp, f stamp = stamp → stamp < bound)
    {locals : Locals} (h : locals.restamp f = locals) : locals.All (Value.StampedBelow bound) := by
  intro scope hscope
  have hscopes := congrArg Locals.scopes h
  exact Scope.stampedBelow_of_restamp hf
    (List.map_inj_left.1 (hscopes.trans (List.map_id _).symm) scope hscope)

end

/-- All stamps of the constants and variables were given before. -/
def Machine.Issued (machine : Machine) : Prop :=
  (machine.moment none).All (Value.StampedBelow machine.meter.nextStamp)

/-! ## Variables beside the known ones -/

/-- What is added to the variables of a call is not seen under the known names. -/
structure Locals.Unseen (add : Locals → Locals) (known : String → Prop) : Prop where
  get? (locals : Locals) {name : String} (h : known name) :
    (add locals).get? name = locals.get? name
  set (locals : Locals) {name : String} (v : Value) (h : known name) :
    (add locals).set name v = add (locals.set name v)

theorem Locals.unseen_id : Locals.Unseen id fun _ => True := ⟨fun _ _ _ => rfl, fun _ _ _ _ => rfl⟩

namespace Delay

/-- The same variables up to their later stamps, and something added to the innermost call. -/
def Adding (delay : Delay) (add : Locals → Locals) (frames others : List Locals) : Prop :=
  others = (frames.map (Locals.restamp delay.stamp)).modifyHead add

theorem links_adding (delay : Delay) {add : Locals → Locals} {known : String → Prop}
    (h : Locals.Unseen add known) : delay.Links (delay.Adding add) known where
  nil heq := heq
  get? {frames others name} heq hk := by
    subst heq
    cases frames with
    | nil => rfl
    | cons locals outer => exact (h.get? _ hk).trans (Locals.get?_restamp _ locals name)
  set {locals outer others} heq := by
    subst heq
    refine ⟨_, _, rfl, fun name v hk => ?_⟩
    have hset := h.set (locals.restamp delay.stamp) (delay.value v) hk
    rw [← Locals.set_restamp] at hset
    exact congrArg (· :: outer.map (Locals.restamp delay.stamp)) hset

theorem adding_id {delay : Delay} {frames others : List Locals} :
    delay.Adding id frames others ↔ others = frames.map (Locals.restamp delay.stamp) := by
  rw [Adding, List.modifyHead_id, id]

/-- Where nothing is added, the variables of the innermost call are related as the others are. -/
theorem called_adding {delay : Delay} {frames others : List Locals} :
    delay.Called (delay.Adding id) frames others ↔ frames ≠ [] ∧ delay.Adding id frames others := by
  constructor
  · rintro ⟨locals, outer, rest, rfl, rfl, hrest⟩
    exact ⟨List.cons_ne_nil _ _, adding_id.2 (congrArg (locals.restamp _ :: ·) (adding_id.1 hrest))⟩
  · rintro ⟨hne, hadding⟩
    obtain ⟨locals, outer, rfl⟩ := List.exists_cons_of_ne_nil hne
    exact ⟨locals, outer, _, rfl, adding_id.1 hadding, adding_id.2 rfl⟩

/-- The delay of a step beside itself: stamps that were not given by then are changed. -/
def still (bound : Nat) : Delay where
  stamp s := if s < bound then s else s + 1
  first := 0
  counts count := count ≤ bound
  stamps := 0
  least := 0
  operations := 0
  injective := by
    intro s t h
    dsimp only at h
    split at h <;> split at h <;> omega
  shifted s _ h := if_pos h
  earlier _ h := Nat.le_of_succ_le h

theorem still_fixes {bound stamp : Nat} (h : stamp < bound) : (still bound).stamp stamp = stamp :=
  if_pos h

theorem lt_of_still {bound stamp : Nat} (h : (still bound).stamp stamp = stamp) :
    stamp < bound := by
  by_contra hge
  have hmoved : (still bound).stamp stamp = stamp + 1 := if_neg hge
  omega

/-- A state whose stamps were given stands beside itself. -/
theorem machines_still {machine : Machine} {bound : Nat} (h : machine.Issued)
    (hb : machine.meter.nextStamp ≤ bound) :
    (still bound).Machines ((still bound).Adding id) machine.globals machine machine := by
  have hfix (stamp : Nat) (hstamp : stamp < machine.meter.nextStamp) :
      (still bound).stamp stamp = stamp := still_fixes (Nat.lt_of_lt_of_le hstamp hb)
  have hframes : machine.frames.map (Locals.restamp (still bound).stamp) = machine.frames :=
    (List.map_congr_left fun locals hlocals =>
      Locals.restamp_eq_self hfix (h.frames locals hlocals)).trans (List.map_id _)
  exact ⟨⟨Nat.zero_le _, rfl, Nat.zero_le _, rfl⟩, rfl,
    (Scope.restamp_eq_self hfix h.globals).symm, adding_id.2 hframes.symm⟩

/-- When other stamps for those that were not given change nothing, all stamps were given. -/
theorem issued_of_still {machine : Machine}
    (hg : machine.globals.restamp (still machine.meter.nextStamp).stamp = machine.globals)
    (hf : machine.frames.map (Locals.restamp (still machine.meter.nextStamp).stamp) =
      machine.frames) : machine.Issued := by
  have hframes := List.map_inj_left.1 (hf.trans (List.map_id _).symm)
  exact ⟨Scope.stampedBelow_of_restamp (fun _ => lt_of_still) hg, fun locals hlocals =>
    Locals.stampedBelow_of_restamp (fun _ => lt_of_still) (hframes locals hlocals),
    fun v hv => (by cases hv)⟩

/-- A state that stands beside itself has only stamps that were given. -/
theorem issued_of_machines {machine : Machine} {globals : Scope}
    (h : (still machine.meter.nextStamp).Machines
      ((still machine.meter.nextStamp).Adding id) globals machine machine) : machine.Issued := by
  have hconstants := h.moved
  rw [← h.constants] at hconstants
  have hframes := (adding_id.1 h.frames).symm
  exact issued_of_still hconstants.symm hframes

end Delay

theorem Machine.issued_start : Machine.start.Issued := Delay.issued_of_still rfl rfl

namespace Evaluation

variable {context : Context} {machine after : Machine}

/-- What follows itself under all delays leads from a state whose stamps were given to such a
state. -/
theorem issued_of_follows {α : Type} (change : (Nat → Nat) → α → α) {act : Evaluation α} {value : α}
    {near : Delay → List Locals → List Locals → Prop}
    (hto : ∀ delay : Delay, delay.Adding id machine.frames machine.frames →
      near delay machine.frames machine.frames)
    (hfrom : ∀ (delay : Delay) frames, near delay frames frames → delay.Adding id frames frames)
    (hf : ∀ delay : Delay, Follows delay context (near delay) machine.globals (change delay.stamp)
      act act)
    (h : machine.Issued) (hrun : act.outcome context machine = (.ok value, after)) :
    after.Issued ∧ value = change (Delay.still after.meter.nextStamp).stamp value := by
  have hact := hf (.still after.meter.nextStamp)
  have hscope : (act.outcome context machine).2.meter.nextStamp ≤ after.meter.nextStamp :=
    Nat.le_of_eq (congrArg (fun ended => ended.2.meter.nextStamp) hrun)
  have hbeside := Delay.machines_still h (hact.earlier machine hscope)
  have hends := hact.ends machine machine
    ⟨hbeside.meters, hbeside.constants, hbeside.moved, hto _ hbeside.frames⟩ hscope
  rw [hrun] at hends
  obtain ⟨hvalue, hafter⟩ := hends
  exact ⟨Delay.issued_of_machines
    ⟨hafter.meters, hafter.constants, hafter.moved, hfrom _ _ hafter.frames⟩, hvalue⟩

/-- An expression is evaluated to a value whose stamps were given, and leaves such a state. -/
theorem issued_eval (h : machine.Issued) (remaining : Nat) (e : Expr) {v : Value}
    (hrun : (eval (callNamed (enter remaining)) e).outcome context machine = (.ok v, after)) :
    after.Issued ∧ v.StampedBelow after.meter.nextStamp := by
  have hact := issued_of_follows Value.restamp (fun _ => id) (fun _ _ => id)
    (fun _ => follows_eval (callsFollow_enter remaining) (Delay.links_adding _ Locals.unseen_id) e
      fun _ _ => trivial) h hrun
  exact ⟨hact.1, Value.stampedBelow_of_restamp (fun _ => Delay.lt_of_still) hact.2.symm⟩

/-- A statement of a function leaves a state whose stamps were given. -/
theorem issued_exec (h : machine.Issued) (hframes : machine.frames ≠ []) (remaining : Nat)
    (statement : Stmt) {flow : Flow}
    (hrun : (exec (callNamed (enter remaining)) statement).outcome context machine =
      (.ok flow, after)) : after.Issued := by
  have hto (delay : Delay) (hadding : delay.Adding id machine.frames machine.frames) :=
    Delay.called_adding.2 ⟨hframes, hadding⟩
  have hfrom (delay : Delay) (frames : List Locals)
      (hcalled : delay.Called (delay.Adding id) frames frames) := (Delay.called_adding.1 hcalled).2
  exact (issued_of_follows Flow.restamp hto hfrom
    (fun _ => follows_exec (callsFollow_enter remaining) statement) h hrun).1

end Evaluation

end LandPattern
