import LandPattern.Proofs.Run.Assigning
import LandPattern.Proofs.Run.Spared

/-!
# Methods on a copy

A method that changes its receiver is called on a component in its place, or on a copy of it that is
stored back. The copy is a variable of its own, so that it must respect the limits by itself: what is
left of a receiver within the limits does.
-/

namespace LandPattern

open Script (Argument AssignOp BinaryOp Expr Name Span Stmt)
open Metered (Yields yields_seq yields_refuse yields_checkLength yields_checkSequence)

/-! ## Receivers within the limits -/

section

variable {b : Bounds} {limits : Limits} {v w : Value}

theorem Value.Sound.restamp (h : v.Sound b) (f : Nat → Nat) : (v.restamp f).Sound b := by
  induction h with
  | atom hs ha =>
    rw [restamp_atom f hs]
    exact .atom hs ha
  | @sequence v s hs length positive items deeper ih =>
    have hsame : (v.restamp f).sequence? = some (s.restamp f) := by
      rw [sequence?_restamp, hs, Option.map_some]
    refine .sequence hsame ?_ positive (fun item hitem => ?_) fun item hitem => ?_
    · exact Nat.le_trans (Nat.le_of_eq (List.length_map _)) length
    · obtain ⟨old, hold, rfl⟩ := List.mem_map.1 hitem
      exact ih old hold
    · obtain ⟨old, hold, rfl⟩ := List.mem_map.1 hitem
      rw [depth_restamp]
      exact deeper old hold

theorem Value.Within.restamp (h : v.Within b) (f : Nat → Nat) : (v.restamp f).Within b :=
  ⟨h.sound.restamp f, Nat.le_trans (Nat.le_of_eq (depth_restamp f v)) h.depth⟩

theorem Arguments.All.restamp {args : Arguments} (h : args.All (Value.Within b)) (f : Nat → Nat) :
    (args.restamp f).All (Value.Within b) := by
  constructor
  · intro v hv
    obtain ⟨old, hold, rfl⟩ := List.mem_map.1 hv
    exact (h.positional old hold).restamp f
  · intro entry hentry
    obtain ⟨old, hold, rfl⟩ := List.mem_map.1 hentry
    exact (h.keywords old hold).restamp f

theorem Value.Within.restocked (h : v.Within b) (hw : v.Restocked w) : w.Within b := by
  rcases hw with rfl | ⟨s, stamp, rfl, rfl⟩
  · exact h
  · have hsound := sound_list.1 h.sound
    exact within_list ⟨hsound.length, hsound.positive, hsound.items, hsound.deeper⟩ h.depth

/-- A method leaves a list that is no deeper than the bound. -/
theorem Method.yields_depth {s : Sequence Value} {args : Arguments} (hb : b.Covers limits)
    (method : String) (hs : (Value.list s).Within b) (ha : args.All (Value.Within b)) :
    Yields limits (callOnList s method args) fun found =>
      ∃ t, found.1 = .list t ∧ t.depth ≤ b.depth := by
  have hdepth : s.depth ≤ b.depth := hs.depth
  have honly : Yields limits (Act.ofExcept (args.onlyOfMethod method)) (Value.Within b) :=
    .ofExcept fun v hv => ha.onlyOfMethod hv
  have hleft {act : Metered (Sequence Value)} (h : Yields limits act fun t => t.depth ≤ b.depth) :
      Yields limits (do return (Value.list (← act), Value.nothing)) fun found =>
        ∃ t, found.1 = .list t ∧ t.depth ≤ b.depth := .bind h fun t ht => .pure ⟨t, rfl, ht⟩
  unfold callOnList
  split
  · refine yields_seq fun item => hleft (yields_seq fun _ => yields_seq fun stamp => ?_)
    exact .bind (yields_checkSequence _) fun _ hchecked => .pure (Nat.le_trans hchecked.2 hb.depth)
  · refine .bind honly fun items hitems => hleft ?_
    unfold extend
    split
    · exact yields_refuse _
    · rename_i other hother
      refine yields_seq fun _ => yields_seq fun _ => yields_seq fun stamp => .pure ?_
      exact Nat.max_le.2 ⟨hdepth, Value.depth_eq hother ▸ hitems.depth⟩
  · refine yields_seq fun v => hleft (yields_seq fun found => ?_)
    split
    · exact yields_seq fun stamp => .pure hdepth
    · exact yields_refuse _
  · have hpop : Yields limits (pop s) fun found => found.1.depth ≤ b.depth := by
      refine yields_seq fun stamp => ?_
      split
      · rename_i found hfound
        exact .pure (((Value.sound_list.1 hs.sound).pop? hfound).2.1 ▸ hdepth)
      · exact yields_refuse _
    exact yields_seq fun _ => .bind hpop fun found hfound => .pure ⟨found.1, rfl, hfound⟩
  · exact yields_seq fun v => yields_seq fun found => .pure ⟨s, rfl, hdepth⟩
  · exact yields_refuse _

/-- What a method leaves of a receiver within the limits may be stored. -/
theorem Method.yields_storable {args : Arguments} (hb : b.Covers limits)
    (hi : b.items ≤ limits.collection) (hd : b.depth ≤ limits.valueDepth) (method : String)
    (hv : v.Within b) (ha : args.All (Value.Within b)) :
    Yields limits (call v method args) fun found => found.1.storable limits := by
  cases v with
  | list s =>
    intro meter _
    refine ⟨trivial, fun found hfound => ?_⟩
    have hsound := ((yields_callOnList hb method hv ha) meter trivial).2 found hfound
    obtain ⟨t, ht, hdepth⟩ := ((yields_depth hb method hv ha) meter trivial).2 found hfound
    have hlength := (Value.sound_list.1 (ht ▸ hsound.1)).length
    dsimp only
    rw [ht]
    simp only [Value.storable, decide_eq_true_eq]
    exact ⟨Nat.le_trans hlength hi, Nat.le_trans hdepth hd⟩
  | element e =>
    refine .ofExcept fun found hfound => ?_
    unfold callOnElement at hfound
    split at hfound
    · obtain ⟨copy, -, hlast⟩ := exists_of_bind_ok hfound
      cases hlast
      rfl
    · obtain ⟨copy, -, hlast⟩ := exists_of_bind_ok hfound
      cases hlast
      rfl
    · obtain ⟨_, -, hlast⟩ := exists_of_bind_ok hfound
      cases hlast
      rfl
    · cases hfound
  | _ => exact yields_refuse _

end

/-! ## The method in its place, and on a copy -/

theorem Value.Restocked.trans {u v w : Value} (h : u.Restocked v) (hw : v.Restocked w) :
    u.Restocked w := by
  rcases h with rfl | ⟨s, stamp, rfl, rfl⟩
  · exact hw
  · obtain ⟨t, rfl, hitems, hdepth⟩ := hw.of_list
    refine .inr ⟨s, t.stamp, rfl, ?_⟩
    rw [← hitems, ← hdepth]

/-- A component of a variable has only items whose stamps were given. -/
theorem Machine.Issued.itemsBelow {machine : Machine} (h : machine.Issued) {name : String}
    {root old : Value} {steps : List Step} (hroot : Evaluation.held? machine name = some root)
    (hold : root.at? steps = some old) : old.ItemsBelow machine.meter.nextStamp := by
  obtain ⟨locals, hlocals, hget⟩ := Option.bind_eq_some_iff.1 hroot
  have hbelow := (h.frames locals (List.mem_of_mem_head? hlocals)).get? hget
  exact Value.at?_induction (fun _ _ _ hv hw => hv.stepTo? hw) hbelow.itemsBelow hold

namespace Evaluation

variable {context : Context} {start : Machine} {done : Locals → Locals} {known : String → Prop}
  {remaining : Nat}

/-- What a method computes from a component and from arguments that are evaluated whenever. -/
structure Calls (limits : Limits) (start : Machine) (method : String)
    (called : Value → Arguments → Option (Value × Value)) : Prop where
  answers {old other : Value} {given : Arguments} {f : Nat → Nat}
    (ho : old.ItemsBelow start.meter.nextStamp) (hr : old.Restocked other) (hf : start.Renews f) :
    Metered.Answers limits (Method.call other method (given.restamp f)) (called old given)
      Method.Like
  attained {old : Value} {given : Arguments} {found : Value × Value}
    (h : called old given = some found) : ∃ other f meter, old.Restocked other ∧
      ((Method.call other method (given.restamp f)).outcome limits meter).1 = .ok found

theorem exists_calls (limits : Limits) (start : Machine) (method : String) :
    ∃ called, Calls limits start method called := by
  have heach (old : Value) (given : Arguments) : ∃ expected : Option (Value × Value),
      (old.ItemsBelow start.meter.nextStamp → ∀ other f, old.Restocked other → start.Renews f →
        Metered.Answers limits (Method.call other method (given.restamp f)) expected Method.Like) ∧
      ∀ found, expected = some found → ∃ other f meter, old.Restocked other ∧
        ((Method.call other method (given.restamp f)).outcome limits meter).1 = .ok found := by
    by_cases hbelow : old.ItemsBelow start.meter.nextStamp
    · have hsame (i j : {pair : Value × (Nat → Nat) //
            old.Restocked pair.1 ∧ start.Renews pair.2}) :
          Metered.Coincide limits Method.Like (Method.call i.1.1 method (given.restamp i.1.2))
            (Method.call j.1.1 method (given.restamp j.1.2)) :=
        Metered.coincide_method hbelow i.2.1 j.2.1 i.2.2.injective j.2.2.injective
          (fun stamp hstamp => ⟨i.2.2.fixes stamp hstamp, j.2.2.fixes stamp hstamp⟩) method given
      obtain ⟨expected, hall, hsome⟩ := Metered.exists_answers hsame
      refine ⟨expected, fun _ other f hother hf => hall ⟨(other, f), hother, hf⟩,
        fun found hfound => ?_⟩
      obtain ⟨⟨⟨other, f⟩, hother, _⟩, meter, hrun⟩ := hsome found hfound
      exact ⟨other, f, meter, hother, hrun⟩
    · exact ⟨none, fun h => absurd h hbelow, fun _ heq => by cases heq⟩
  choose called hcalled using heach
  exact ⟨called, fun ho hr hf => (hcalled _ _).1 ho _ _ hr hf, fun h => (hcalled _ _).2 _ h⟩

section

variable {method : Name} (hi : start.Issued) (hm : Method.mutates method.text) (receiver : Expr)
  (args : List Argument)

include hi hm

/-- A method that changes its receiver, called on a component in its place, with arguments that are
evaluated as expected. -/
theorem answers_change {β γ : Type} {expected : Option γ} {same : γ → Arguments → Prop}
    {changed : γ → Value → Option (Value × β)} (gives : β → Value → Prop) (hp : receiver.isPlace)
    (span : Span)
    (hc : ∀ index ∈ receiver.indices, Calm context start (eval (callNamed (enter remaining)) index))
    (ha : Answers context start id (evalArgs (callNamed (enter remaining)) .empty args) expected
      (Answers.Only same id))
    (hchanged : ∀ name steps root old other x given, held? start name = some root →
      root.at? steps = some old → old.Restocked other → expected = some x → same x given →
      Metered.Answers context.limits (Method.call other method.text given) (changed x old)
        fun found result => found.1.Like result.1 ∧ gives found.2 result.2) :
    Answers context start id
      (eval (callNamed (enter remaining)) (.method span receiver method args))
      ((placeOf? (valueAt? context start (callNamed (enter remaining))) receiver).bind fun place =>
        expected.bind fun x =>
          (rewriteAt? context start place (changed x)).map (Prod.mk place.root))
      fun x result after => gives x.2.2 result ∧ ∃ v, x.2.1.Like v ∧
        after = (fun locals => locals.set x.1 v) ∘ id := by
  unfold eval
  refine answers_counted (answers_locating _ (answers_noting (answers_charged ?_)))
  refine answers_locating _ ?_
  rw [if_pos (by rw [hm, hp]; rfl)]
  refine answers_then (answers_resolve hi Locals.unseen_id receiver (fun _ _ => trivial) hc)
    fun place other _ heq => ?_
  subst heq
  refine answers_then ha fun x given hx hgiven => ?_
  have hplace : Answers context start id _ _ _ :=
    answers_rewriteAt Locals.unseen_id trivial gives (fun old => .method old method.text given)
      fun root old other hroot hold hother =>
        hchanged place.root place.steps root old other x given hroot hold hother hx hgiven
  refine hplace.expect ?_
  rintro found result machine - ⟨after, hafter, hresumed⟩
  exact ⟨after, hafter, hresumed⟩

/-- The method that is called on a component in its place. -/
theorem answers_method {called : Value → Arguments → Option (Value × Value)}
    (hcalled : Calls context.limits start method.text called) (hp : receiver.isPlace) (span : Span)
    (hc : ∀ index ∈ receiver.indices, Calm context start (eval (callNamed (enter remaining)) index))
    (ha : ∀ arg ∈ args, Calm context start (eval (callNamed (enter remaining)) arg.value)) :
    Answers context start id
      (eval (callNamed (enter remaining)) (.method span receiver method args))
      ((placeOf? (valueAt? context start (callNamed (enter remaining))) receiver).bind fun place =>
        (argumentsAt? context start (callNamed (enter remaining)) args).bind fun given =>
          (rewriteAt? context start place fun old => called old given).map (Prod.mk place.root))
      fun x result after => x.2.2.Like result ∧ ∃ v, x.2.1.Like v ∧
        after = (fun locals => locals.set x.1 v) ∘ id := by
  refine answers_change hi hm receiver args Value.Like hp span hc
    (answers_evalArgs hi Locals.unseen_id args (fun _ _ => trivial) ha)
    fun name steps root old other given found hroot hold hother _ hgiven => ?_
  obtain ⟨f, hf, rfl⟩ := hgiven
  exact hcalled.answers (hi.itemsBelow hroot hold) hother hf

end

/-- A component is copied into a variable, which is declared if there is a call. -/
theorem answers_declare (hi : start.Issued) (receiver : Expr) (hp : receiver.isPlace)
    (hc : ∀ index ∈ receiver.indices, Calm context start (eval (callNamed (enter remaining)) index))
    (span : Span) (copy : Name) :
    Answers context start id (exec (callNamed (enter remaining)) (.bind span copy receiver))
      ((component? context start (callNamed (enter remaining)) receiver).bind fun old =>
        start.frames.head?.map fun _ => old)
      fun old _ after => ∃ v, old.Restocked v ∧ after = fun locals => locals.declare copy.text v := by
  unfold exec
  refine answers_counted (answers_chargedAt span ?_)
  refine answers_then (answers_place hi receiver hp hc) fun old v _ hv => ?_
  have hdeclare : Answers context start id _ _ _ := answers_modifyLocals
    fun locals => locals.declare copy.text v
  have hcall : start.frames.head?.map (fun _ => old) =
      (start.frames.head?.map fun _ => ()).bind fun _ => some old := by
    cases start.frames.head? <;> rfl
  rw [hcall]
  refine answers_bind hdeclare fun _ _ after _ hafter => answers_pure ⟨v, hv, ?_⟩
  exact hafter.trans rfl

/-- What was declared is found under its name. -/
theorem get?_declare {locals : Locals} (h : locals.scopes ≠ []) (name : String) (v : Value) :
    (locals.declare name v).get? name = some v := by
  obtain ⟨scopes⟩ := locals
  cases scopes with
  | nil => exact absurd rfl h
  | cons inner outer =>
    simp only [Locals.get?, Locals.declare, List.findSome?_cons, Scope.lookup_declare, if_true]

/-- Writing to what was declared is declaring it anew. -/
theorem set_declare (name : String) (v w : Value) (locals : Locals) :
    (locals.declare name v).set name w = locals.declare name w := by
  have hscope (scope : Scope) : (scope.declare name v).declare name w = scope.declare name w := by
    induction scope with
    | nil => simp only [Scope.declare, if_true]
    | cons entry rest ih =>
      by_cases hname : entry.1 = name
      · simp only [Scope.declare, if_pos hname, if_true]
      · simp only [Scope.declare, if_neg hname, ih]
  obtain ⟨scopes⟩ := locals
  cases scopes with
  | nil => rfl
  | cons inner outer =>
    simp only [Locals.declare, Locals.set, Locals.set.go, Scope.lookup_declare, if_true,
      Option.isSome_some, hscope]

section

variable {method : Name} {called : Value → Arguments → Option (Value × Value)} {locals : Locals}
  (hhead : start.frames.head? = some locals) (hscopes : locals.scopes ≠ []) (copy : Name)

include hhead hscopes

theorem get?_copy (v : Value) :
    ((start.frames.head?.map fun locals => locals.declare copy.text v).bind fun locals =>
      locals.get? copy.text) = some v := by
  rw [hhead]
  exact get?_declare hscopes copy.text v

/-- The method that is called on the copy. -/
theorem answers_onCopy (hcalled : Calls context.limits start method.text called) (hi : start.Issued)
    (hm : Method.mutates method.text) {old v : Value}
    (ho : old.ItemsBelow start.meter.nextStamp) (hv : old.Restocked v) (span inner : Span)
    (args : List Argument) (hk : copy.text ∉ Script.argumentMentions args)
    (ha : ∀ arg ∈ args, Calm context start (eval (callNamed (enter remaining)) arg.value)) :
    Answers context start (fun locals => locals.declare copy.text v)
      (eval (callNamed (enter remaining)) (.method span (.name inner copy.text) method args))
      ((argumentsAt? context start (callNamed (enter remaining)) args).bind fun given =>
        (called old given).bind fun found =>
          if found.1.storable context.limits then some found else none)
      fun x result after => x.2.Like result ∧ ∃ c, x.1.Like c ∧
        after = fun locals => locals.declare copy.text c := by
  have hunseen := Locals.unseen_declare copy.text v
  unfold eval
  refine answers_counted (answers_locating _ (answers_noting (answers_charged ?_)))
  refine answers_locating _ ?_
  rw [if_pos (by rw [hm]; rfl)]
  rw [resolve, pure_bind]
  refine answers_then (answers_evalArgs hi hunseen args (fun name hname heq => hk (heq ▸ hname)) ha)
    fun given other _ hgiven => ?_
  obtain ⟨f, hf, rfl⟩ := hgiven
  have hcopy := get?_copy hhead hscopes copy v
  have hwritten (root held other : Value)
      (hroot : ((start.frames.head?.map fun locals => locals.declare copy.text v).bind fun locals =>
        locals.get? copy.text) = some root)
      (hheld : root.at? [] = some held) (hother : held.Restocked other) :
      Metered.Answers context.limits (Method.call other method.text (given.restamp f))
        (called old given) Method.Like := by
    cases hcopy.symm.trans hroot
    cases hheld
    exact hcalled.answers ho (hv.trans hother) hf
  have hplace : Answers context start (fun locals => locals.declare copy.text v) _ _ _ :=
    answers_updatePlace Value.Like ⟨copy.text, inner, []⟩
      (fun old => .method old method.text (given.restamp f)) hwritten
  rw [hcopy] at hplace
  refine hplace.weaken ?_
  rintro found result machine ⟨after, ⟨hresult, c, hc, rfl⟩, hresumed⟩
  refine ⟨_, ⟨hresult, c, hc, rfl⟩, ?_⟩
  have hset : (fun locals : Locals => (locals.declare copy.text v).set copy.text c) =
      fun locals => locals.declare copy.text c := funext (set_declare copy.text v c)
  exact hset ▸ hresumed

/-- The copy that is stored back. -/
theorem answers_storeCopy (hi : start.Issued) {x c : Value} (hx : x.Like c) (span inner : Span)
    (receiver : Expr) (hk : copy.text ∉ receiver.mentions)
    (hc : ∀ index ∈ receiver.indices, Calm context start (eval (callNamed (enter remaining)) index)) :
    Answers context start (fun locals => locals.declare copy.text c)
      (exec (callNamed (enter remaining))
        (.assign span receiver .set (.name inner copy.text)))
      (assigned? context start (callNamed (enter remaining)) receiver fun _ => some (x, ()))
      fun y _ after => ∃ w, y.2.Like w ∧
        after = (fun locals => locals.set y.1 w) ∘ fun locals => locals.declare copy.text c := by
  have hmeaning : meaning? context start (fun locals => locals.declare copy.text c) copy.text =
      some c := by
    simp only [meaning?, get?_copy hhead hscopes copy c]
  have hread : Answers context start (fun locals => locals.declare copy.text c)
      (eval (callNamed (enter remaining)) (.name inner copy.text)) (some x)
      (Answers.Only Value.Like fun locals => locals.declare copy.text c) := by
    unfold eval
    refine answers_counted (answers_locating _ (answers_noting (answers_charged ?_)))
    have hlookup : Answers context start (fun locals => locals.declare copy.text c) _ _ _ :=
      answers_lookup copy.text
    rw [hmeaning] at hlookup
    have hfound : Answers context start (fun locals => locals.declare copy.text c)
        (lookup copy.text) ((some c).map fun _ => x)
        (Answers.Only Value.Like fun locals => locals.declare copy.text c) := by
      refine hlookup.expect ?_
      rintro found value machine hfound ⟨after, ⟨rfl, rfl⟩, hresumed⟩
      cases hfound
      exact ⟨_, ⟨hx, rfl⟩, hresumed⟩
    exact hfound
  have hassign : Answers context start (fun locals => locals.declare copy.text c) _
      ((some x).bind fun y => assigned? context start (callNamed (enter remaining)) receiver fun _ =>
        some (y, ())) _ :=
    answers_assign hi (Locals.unseen_declare copy.text c) hread span receiver
      (fun name hname heq => hk (heq ▸ hname)) hc .set fun _ _ _ _ hv _ =>
        Metered.answers_pure ⟨hv, rfl⟩
  refine hassign.weaken ?_
  rintro y flow machine ⟨after, ⟨-, hafter⟩, hresumed⟩
  exact ⟨after, hafter, hresumed⟩

end

/-- A statement, the value of an expression behind it, and another statement. -/
def valueBetween (caller : Caller) (first : Stmt) (e : Expr) (last : Stmt) : Evaluation Value := do
  let _ ← exec caller first
  let v ← eval caller e
  let _ ← exec caller last
  return v

section

variable {method : Name} {called : Value → Arguments → Option (Value × Value)}
  {receiver : Expr} {args : List Argument}

/-- A component that can be read has only items whose stamps were given. -/
theorem itemsBelow_component (hi : start.Issued) {caller : Caller} {old : Value}
    (h : component? context start caller receiver = some old) :
    old.ItemsBelow start.meter.nextStamp := by
  obtain ⟨place, -, hplace⟩ := Option.bind_eq_some_iff.1 h
  obtain ⟨root, hroot, hold⟩ := Option.bind_eq_some_iff.1 hplace
  refine Value.at?_induction (fun _ _ _ hv hw => hv.stepTo? hw) ?_ hold
  unfold meaning? at hroot
  split at hroot
  · rename_i hlocal
    cases hroot
    rw [Option.map_id] at hlocal
    exact hi.itemsBelow hlocal (Value.at?_nil _)
  · rename_i hglobal
    cases hroot
    exact Value.StampedBelow.itemsBelow (hi.globals.lookup hglobal)
  · split at hroot
    · cases hroot
      exact fun _ hnone => by cases hnone
    · obtain ⟨word, -, rfl⟩ := Option.map_eq_some_iff.1 hroot
      exact fun _ hnone => by cases hnone

/-- What is left of a component within the limits may be stored. -/
theorem Calls.storable {b : Bounds} {limits : Limits} (hcalled : Calls limits start method.text called)
    (hb : b.Covers limits) (hi : b.items ≤ limits.collection) (hd : b.depth ≤ limits.valueDepth)
    {old : Value} {given : Arguments} {found : Value × Value} (ho : old.Within b)
    (hg : given.All (Value.Within b)) (h : called old given = some found) :
    found.1.storable limits := by
  obtain ⟨other, f, meter, hother, hrun⟩ := hcalled.attained h
  exact ((Method.yields_storable hb hi hd method.text (ho.restocked hother) (hg.restamp f))
    meter trivial).2 found hrun

/-- The copy, the call and the assignment back. -/
theorem answers_copied (hcalled : Calls context.limits start method.text called) (hi : start.Issued)
    (hblocks : start.HasBlocks) (hm : Method.mutates method.text) (hp : receiver.isPlace)
    (hc : ∀ index ∈ receiver.indices, Calm context start (eval (callNamed (enter remaining)) index))
    (ha : ∀ arg ∈ args, Calm context start (eval (callNamed (enter remaining)) arg.value))
    (copy : Name) (hkr : copy.text ∉ receiver.mentions)
    (hka : copy.text ∉ Script.argumentMentions args) (span : Span) :
    Answers context start id
      (valueBetween (callNamed (enter remaining)) (.bind span copy receiver)
        (.method span (.name span copy.text) method args)
        (.assign span receiver .set (.name span copy.text)))
      (((component? context start (callNamed (enter remaining)) receiver).bind fun old =>
        start.frames.head?.map fun _ => old).bind fun old =>
          ((argumentsAt? context start (callNamed (enter remaining)) args).bind fun given =>
            (called old given).bind fun found =>
              if found.1.storable context.limits then some found else none).bind fun found =>
                (assigned? context start (callNamed (enter remaining)) receiver fun _ =>
                  some (found.1, ())).bind fun whole => some (whole.1, whole.2, found.2))
      fun x result after => x.2.2.Like result ∧ ∃ c v, x.2.1.Like v ∧
        after = (fun locals => locals.set x.1 v) ∘ fun locals => locals.declare copy.text c := by
  refine answers_bind (answers_declare hi receiver hp hc span copy) fun old _ after hold hafter => ?_
  obtain ⟨v, hv, rfl⟩ := hafter
  obtain ⟨component, hcomponent, hhead⟩ := Option.bind_eq_some_iff.1 hold
  obtain ⟨locals, hlocals, rfl⟩ := Option.map_eq_some_iff.1 hhead
  have hscopes := hblocks locals (List.mem_of_mem_head? hlocals)
  have hbelow := itemsBelow_component hi hcomponent
  refine answers_bind (answers_onCopy hlocals hscopes copy hcalled hi hm hbelow hv span span args hka
    ha) fun found result after _ hafter => ?_
  obtain ⟨hresult, c, hfound, rfl⟩ := hafter
  refine answers_bind (answers_storeCopy hlocals hscopes copy hi hfound span span receiver hkr hc)
    fun whole _ after _ hafter => ?_
  obtain ⟨w, hw, rfl⟩ := hafter
  exact answers_pure ⟨hresult, c, w, hw, rfl⟩

/-- The copy does the same as the method in its place, if what is left of it may be stored. -/
theorem copied_eq {caller : Caller}
    (hs : ∀ place root old given found,
      placeOf? (valueAt? context start caller) receiver = some place →
      held? start place.root = some root → root.at? place.steps = some old →
      argumentsAt? context start caller args = some given → called old given = some found →
      found.1.storable context.limits) :
    (((component? context start caller receiver).bind fun old =>
      start.frames.head?.map fun _ => old).bind fun old =>
        ((argumentsAt? context start caller args).bind fun given =>
          (called old given).bind fun found =>
            if found.1.storable context.limits then some found else none).bind fun found =>
              (assigned? context start caller receiver fun _ =>
                some (found.1, ())).bind fun whole => some (whole.1, whole.2, found.2)) =
      (placeOf? (valueAt? context start caller) receiver).bind fun place =>
        (argumentsAt? context start caller args).bind fun given =>
          (rewriteAt? context start place fun old => called old given).map (Prod.mk place.root) := by
  unfold component? assigned?
  cases hplace : placeOf? (valueAt? context start caller) receiver with
  | none => rfl
  | some place =>
    cases hgiven : argumentsAt? context start caller args with
    | none => simp only [Option.bind_some, Option.bind_none, Option.bind_fun_none]
    | some given =>
      unfold rewriteAt?
      cases hroot : held? start place.root with
      | none =>
        simp only [Option.bind_some, Option.bind_none, Option.bind_fun_none, Option.map_none, hroot]
      | some root =>
        obtain ⟨locals, hlocals, -⟩ := Option.bind_eq_some_iff.1 hroot
        simp only [Option.bind_some, meaning?_held hroot, hroot, hlocals, Option.map_some,
          Option.bind_fun_some]
        rw [root.rewriteWithin?_eq_at? context.limits place.steps fun old => called old given]
        cases hold : root.at? place.steps with
        | none => rfl
        | some old =>
          simp only [Option.bind_some]
          cases hfound : called old given with
          | none => rfl
          | some found =>
            have hstorable := hs place root old given found hplace hroot hold hgiven hfound
            simp only [Option.bind_some, hstorable, if_true]
            rw [root.rewriteWithin?_some context.limits place.steps found]
            cases root.rewriteWithin? context.limits place.steps fun _ => some (found.1, ()) <;> rfl

end

end Evaluation

end LandPattern
