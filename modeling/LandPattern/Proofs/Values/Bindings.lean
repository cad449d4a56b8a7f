import LandPattern.Run.Program

/-!
# What bound arguments are like

Binding arguments and taking them out moves values about and makes none. A property of all arguments
therefore holds of whatever is read from them.
-/

namespace LandPattern

/-- All arguments have a property. -/
structure Arguments.All (good : Value → Prop) (args : Arguments) : Prop where
  positional : ∀ v ∈ args.positional, good v
  keywords : ∀ entry ∈ args.keywords, good entry.2

/-- All arguments that are not taken yet have a property. -/
def Bound.All (good : Value → Prop) (bound : Bound) : Prop := ∀ entry ∈ bound.values, good entry.2

section

variable {good : Value → Prop} {args : Arguments}

namespace Arguments

theorem all_true (args : Arguments) : args.All fun _ => True :=
  ⟨fun _ _ => trivial, fun _ _ => trivial⟩

theorem All.empty : Arguments.empty.All good :=
  ⟨fun _ h => absurd h List.not_mem_nil, fun _ h => absurd h List.not_mem_nil⟩

theorem All.add {v : Value} (h : args.All good) (hv : good v) : (args.add v).All good := by
  refine ⟨fun w hw => ?_, h.keywords⟩
  rcases List.mem_append.1 hw with hold | hnew
  · exact h.positional w hold
  · rw [List.mem_singleton.1 hnew]
    exact hv

theorem All.addKeyword {name : String} {v : Value} {more : Arguments} (h : args.All good)
    (hv : good v) (hmore : args.addKeyword name v = .ok more) : more.All good := by
  unfold Arguments.addKeyword at hmore
  split at hmore
  · cases hmore
  · cases hmore
    refine ⟨h.positional, fun entry hentry => ?_⟩
    rcases List.mem_append.1 hentry with hold | hnew
    · exact h.keywords entry hold
    · rw [List.mem_singleton.1 hnew]
      exact hv

theorem All.unnamed {callee : String} {values : List Value} (h : args.All good)
    (hvalues : args.unnamed callee = .ok values) : ∀ v ∈ values, good v := by
  unfold Arguments.unnamed at hvalues
  split at hvalues
  · cases hvalues
    exact h.positional
  · cases hvalues

theorem All.only {callee : String} {v : Value} (h : args.All good)
    (hv : args.only callee = .ok v) : good v := by
  obtain ⟨values, hvalues, hsingle⟩ := exists_of_bind_ok hv
  split at hsingle
  · cases hsingle
    exact h.unnamed hvalues v (List.mem_singleton.2 rfl)
  · cases hsingle

theorem All.onlyOfMethod {method : String} {v : Value} (h : args.All good)
    (hv : args.onlyOfMethod method = .ok v) : good v := by
  obtain ⟨values, hvalues, hsingle⟩ := exists_of_bind_ok hv
  split at hsingle
  · cases hsingle
    exact h.unnamed hvalues v (List.mem_singleton.2 rfl)
  · cases hsingle

end Arguments

theorem Bound.All.append {bound : Bound} {name : String} {v : Value} (h : bound.All good)
    (hv : good v) : Bound.All good { bound with values := bound.values ++ [(name, v)] } := by
  intro entry hentry
  rcases List.mem_append.1 hentry with hold | hnew
  · exact h entry hold
  · rw [List.mem_singleton.1 hnew]
    exact hv

theorem Bound.All.withKeywords {params : List String} {keywords : List (String × Value)}
    {bound done : Bound} (h : bound.All good) (hk : ∀ entry ∈ keywords, good entry.2)
    (hdone : bound.withKeywords params keywords = .ok done) : done.All good := by
  induction keywords generalizing bound with
  | nil =>
    cases hdone
    exact h
  | cons entry rest ih =>
    unfold Bound.withKeywords at hdone
    split at hdone
    · cases hdone
    · split at hdone
      · cases hdone
      · exact ih (h.append (hk entry List.mem_cons_self))
          (fun other hother => hk other (List.mem_cons_of_mem _ hother)) hdone

theorem Arguments.All.bind {callee : String} {params : List String} {bound : Bound}
    (h : args.All good) (hbound : args.bind callee params = .ok bound) : bound.All good := by
  unfold Arguments.bind at hbound
  split at hbound
  · cases hbound
  · refine Bound.All.withKeywords (fun entry hentry => ?_) h.keywords hbound
    exact h.positional entry.2 (List.of_mem_zip hentry).2

theorem Bound.All.lookup {bound : Bound} {param : String} {v : Value} (h : bound.All good)
    (hv : bound.values.lookup param = some v) : good v := by
  obtain ⟨before, after, heq, -⟩ := List.lookup_eq_some_iff.1 hv
  exact h (param, v) (by rw [heq]; exact List.mem_append_right _ List.mem_cons_self)

theorem Bound.All.take {bound : Bound} (h : bound.All good) (param : String) :
    (bound.take param).2.All good :=
  fun entry hentry => h entry (List.mem_filter.1 hentry).1

end

namespace Binding

variable {α β γ : Type} {good : Value → Prop} {promise other : α → Prop}

/-- Whatever good values are bound, what is left is good and the result is as promised. -/
def Reads (good : Value → Prop) (reading : Binding α) (promise : α → Prop) : Prop :=
  ∀ bound : Bound, bound.All good → ∀ result, reading bound = .ok result →
    result.2.All good ∧ promise result.1

theorem reads_pure {value : α} (h : promise value) : Reads good (pure value) promise :=
  fun _ hbound _ heq => (by cases heq; exact ⟨hbound, h⟩)

theorem reads_bind {reading : Binding α} {next : α → Binding β} {after : β → Prop}
    (h : Reads good reading promise) (hn : ∀ value, promise value → Reads good (next value) after) :
    Reads good (reading >>= next) after := by
  intro bound hbound result heq
  obtain ⟨found, hfirst, hnext⟩ := exists_of_bind_ok heq
  obtain ⟨hleft, hvalue⟩ := h bound hbound found hfirst
  exact hn found.1 hvalue found.2 hleft result hnext

/-- A step that does not look at the bound values. -/
theorem reads_lift {step : Except Refusal α} (h : ∀ value, step = .ok value → promise value) :
    Reads good (liftM step : Binding α) promise := by
  intro bound hbound result heq
  obtain ⟨value, hstep, hresult⟩ := exists_of_bind_ok heq
  cases hresult
  exact ⟨hbound, h value hstep⟩

theorem reads_get : Reads good (get : Binding Bound) (Bound.All good) :=
  fun _ hbound _ heq => (by cases heq; exact ⟨hbound, hbound⟩)

theorem reads_set {bound : Bound} (h : bound.All good) :
    Reads good (set bound : Binding PUnit) fun _ => True :=
  fun _ _ _ heq => (by cases heq; exact ⟨h, trivial⟩)

/-- A required value is read from one of the bound ones. -/
theorem reads_required {param : String} {read : Value → String → Except Refusal α}
    (h : ∀ v value, good v → read v param = .ok value → promise value) :
    Reads good (required param read) promise := by
  refine reads_bind reads_get fun bound hbound => ?_
  have hrequire : Reads good (liftM (bound.require param) : Binding (Value × Bound))
      fun found => good found.1 ∧ found.2.All good := by
    refine reads_lift fun found hfound => ?_
    unfold Bound.require at hfound
    split at hfound
    · rename_i v rest htake
      cases hfound
      obtain ⟨hv, hrest⟩ := Prod.mk.inj htake
      have hleft := hbound.take param
      exact ⟨hbound.lookup hv, hrest ▸ hleft⟩
    · cases hfound
  exact reads_bind hrequire fun found hfound => reads_bind (reads_set hfound.2) fun _ _ =>
    reads_lift fun value hvalue => h found.1 value hfound.1 hvalue

/-- An optional value is read from one of the bound ones, if it is given. -/
theorem reads_optional {param : String} {read : Value → String → Except Refusal α}
    (h : ∀ v value, good v → read v param = .ok value → promise value) :
    Reads good (optional param read) fun found => ∀ value, found = some value → promise value := by
  refine reads_bind reads_get fun bound hbound => ?_
  refine reads_bind (reads_set (hbound.take param)) fun _ _ => ?_
  split
  · exact reads_pure fun _ heq => (by cases heq)
  · rename_i v hv
    refine reads_bind (reads_lift fun value hread => h v value (hbound.lookup hv) hread) ?_
    intro value hvalue
    exact reads_pure fun _ heq => (by cases heq; exact hvalue)

theorem reads_leftover :
    Reads good leftover fun entries => ∀ entry ∈ entries, good entry.2 :=
  reads_bind reads_get fun _ hbound => reads_pure hbound

/-- What every step of a walk keeps holds of its result. -/
theorem reads_foldl {step : α → γ → Binding α} {items : List γ} {start : α}
    (h : promise start)
    (hs : ∀ done item, item ∈ items → promise done → Reads good (step done item) promise) :
    Reads good (items.foldlM step start) promise := by
  induction items generalizing start with
  | nil => exact reads_pure h
  | cons item rest ih =>
    refine reads_bind (hs start item List.mem_cons_self h) fun done hdone => ?_
    exact ih hdone fun other next hnext => hs other next (List.mem_cons_of_mem _ hnext)

/-- The arguments of a call are read as what is bound to its parameters. -/
theorem run_reads {reading : Binding α} {args : Arguments} {callee : String}
    {params : List String} {value : α} (h : Reads good reading promise) (ha : args.All good)
    (hv : run reading args callee params = .ok value) : promise value := by
  obtain ⟨bound, hbound, hrest⟩ := exists_of_bind_ok hv
  obtain ⟨result, hresult, hlast⟩ := exists_of_bind_ok hrest
  cases hlast
  exact (h bound (ha.bind hbound) result hresult).2

end Binding

end LandPattern
