import LandPattern.Proofs.Run.Parameters

/-!
# What readings take

A reading takes the values of some parameters out of what is bound, and what it gives depends on
these alone. Keywords of other parameters can be added to the arguments: they are left, wherever they
stand among the other keywords.
-/

namespace LandPattern

/-! ## What a reading takes -/

/-- The bound values of other parameters. -/
def Bound.without (bound : Bound) (names : List String) : Bound :=
  { bound with values := bound.values.filter fun entry => !names.contains entry.1 }

theorem Bound.without_nil (bound : Bound) : bound.without [] = bound :=
  congrArg (Bound.mk bound.callee) (List.filter_eq_self.2 fun _ _ => rfl)

theorem Bound.take_snd (bound : Bound) (param : String) :
    (bound.take param).2 = bound.without [param] := by
  have hkeep : (fun entry : String × Value => entry.1 != param) =
      fun entry => !List.contains [param] entry.1 := by
    funext entry
    by_cases h : entry.1 = param <;> simp [h]
  rw [take, without, hkeep]

theorem Bound.without_append (bound : Bound) (names more : List String) :
    bound.without (names ++ more) = (bound.without names).without more := by
  rw [without, without, without]
  congr 1
  rw [List.filter_filter]
  refine List.filter_congr fun entry _ => ?_
  rw [List.contains_append]
  simp [Bool.and_comm]

theorem Bound.nodup_without {bound : Bound} (h : (Scope.names bound.values).Nodup)
    (names : List String) : (Scope.names (bound.without names).values).Nodup :=
  h.sublist (List.filter_sublist.map Prod.fst)

/-- What stands under a parameter can be taken out of what is bound. -/
theorem Bound.perm_without {bound : Bound} {param : String} {v : Value}
    (h : (Scope.names bound.values).Nodup) (hv : bound.values.lookup param = some v) :
    bound.values.Perm ((param, v) :: (bound.without [param]).values) := by
  rw [← take_snd]
  exact Entries.perm_of_lookup h hv

theorem Bound.without_of_lookup {bound : Bound} {param : String}
    (h : bound.values.lookup param = none) : bound.without [param] = bound := by
  rw [← take_snd, take, Entries.filter_of_not_mem (Entries.lookup_eq_none_iff.1 h)]

namespace Binding

variable {α β : Type}

/-- A reading takes these parameters: what it gives depends on their values alone, and the values of
all others are left. -/
def Takes (reading : Binding α) (names : List String) : Prop :=
  ∀ bound other : Bound, other.callee = bound.callee →
    (∀ name ∈ names, other.values.lookup name = bound.values.lookup name) →
    reading other = (reading bound).map fun found => (found.1, other.without names)

/-- With the same values for what it takes, a reading gives the same. -/
theorem Takes.congr {reading : Binding α} {names : List String} (h : Takes reading names)
    {bound other : Bound} (hcallee : other.callee = bound.callee)
    (hsame : ∀ name ∈ names, other.values.lookup name = bound.values.lookup name) {value : α}
    (hok : reading bound = .ok (value, bound.without names)) :
    reading other = .ok (value, other.without names) := by
  rw [h bound other hcallee hsame, hok]
  rfl

theorem takes_pure (value : α) : Takes (pure value) [] := by
  intro bound other _ _
  rw [Bound.without_nil]
  rfl

theorem takes_bind {reading : Binding α} {next : α → Binding β} {names more : List String}
    (h : Takes reading names) (hn : ∀ value, Takes (next value) more) :
    Takes (reading >>= next) (names ++ more) := by
  intro bound other hcallee hsame
  have hself := h bound bound rfl fun _ _ => rfl
  have hother := h bound other hcallee fun name hname => hsame name (List.mem_append_left _ hname)
  change (reading other >>= fun found => next found.1 found.2) =
    (reading bound >>= fun found => next found.1 found.2).map _
  rw [hother]
  cases hread : reading bound with
  | error why => rfl
  | ok found =>
    rw [hread] at hself
    obtain ⟨value, left⟩ := found
    obtain rfl : left = bound.without names := (Prod.mk.inj (Except.ok.inj hself)).2
    -- What the second reading takes is among what the first one has left.
    have hleft : ∀ name ∈ more, (other.without names).values.lookup name =
        (bound.without names).values.lookup name := by
      intro name hname
      rw [Bound.without, Bound.without, Entries.lookup_filter fun name => !names.contains name,
        Entries.lookup_filter fun name => !names.contains name,
        hsame name (List.mem_append_right _ hname)]
    rw [Bound.without_append]
    exact hn value (bound.without names) (other.without names) hcallee hleft

theorem takes_required (param : String) (read : Value → String → Except Refusal α) :
    Takes (required param read) [param] := by
  intro bound other hcallee hsame
  rw [required_apply, required_apply, hsame param List.mem_cons_self, hcallee, Bound.take_snd,
    Bound.take_snd]
  cases bound.values.lookup param with
  | none => rfl
  | some v =>
    dsimp only
    cases read v param <;> rfl

/-- A value that a parameter may have is taken out and read. -/
theorem optional_apply (param : String) (read : Value → String → Except Refusal α)
    (bound : Bound) :
    optional param read bound =
      match bound.values.lookup param with
      | none => .ok (none, (bound.take param).2)
      | some v => (read v param).map fun value => (some value, (bound.take param).2) := by
  change (match bound.values.lookup param with
    | none => (pure none : Binding (Option α))
    | some v => (liftM (read v param) : Binding α) >>= fun value => pure (some value))
      (bound.take param).2 = _
  cases bound.values.lookup param with
  | none => rfl
  | some v =>
    change ((liftM (read v param) : Binding α) (bound.take param).2 >>= fun found =>
      .ok (some found.1, found.2)) = _
    rw [lift_apply]
    dsimp only
    cases read v param <;> rfl

theorem takes_optional (param : String) (read : Value → String → Except Refusal α) :
    Takes (optional param read) [param] := by
  intro bound other hcallee hsame
  rw [optional_apply, optional_apply, hsame param List.mem_cons_self, Bound.take_snd,
    Bound.take_snd]
  cases bound.values.lookup param with
  | none => rfl
  | some v =>
    dsimp only
    cases read v param <;> rfl

end Binding

/-! ## Arguments and further keywords -/

namespace Arguments

/-- A call with these further keyword arguments, which may stand anywhere among the others. -/
structure Extends (called args : Arguments) (fields : Scope) : Prop where
  positional : called.positional = args.positional
  keywords : called.keywords.Perm (args.keywords ++ fields)
  distinct : (Scope.names called.keywords).Nodup

variable {args called : Arguments} {fields : Scope} {callee : String} {params : List String}

/-- Under fitting arguments no name is bound twice. -/
theorem Fits.nodup (h : args.Fits params) (hp : params.Nodup) :
    (Scope.names (args.bound callee params).values).Nodup := by
  rw [bound, Scope.names_append, Scope.names_zip]
  refine List.nodup_append.2 ⟨hp.sublist (List.take_sublist _ _), h.distinct, ?_⟩
  rintro name hname _ hkeyword rfl
  exact (h.free name hkeyword).2 hname

/-- Further keywords of free parameters fit when the other arguments do. -/
theorem Extends.fits_iff (h : called.Extends args fields)
    (hfree : ∀ name ∈ fields.names, name ∈ params ∧ name ∉ params.take args.positional.length) :
    called.Fits params ↔ args.Fits params := by
  have hnames : (Scope.names called.keywords).Perm (Scope.names args.keywords ++ fields.names) := by
    rw [← Scope.names_append]
    exact h.keywords.map Prod.fst
  have hdistinct : (Scope.names args.keywords ++ fields.names).Nodup :=
    hnames.nodup_iff.1 h.distinct
  constructor
  · rintro ⟨hfew, -, hall⟩
    rw [h.positional] at hfew hall
    exact ⟨hfew, (List.nodup_append.1 hdistinct).1, fun name hname =>
      hall name (hnames.mem_iff.2 (List.mem_append_left _ hname))⟩
  · rintro ⟨hfew, -, hall⟩
    refine ⟨h.positional ▸ hfew, h.distinct, fun name hname => ?_⟩
    rw [h.positional]
    rcases List.mem_append.1 (hnames.mem_iff.1 hname) with hold | hnew
    · exact hall name hold
    · exact hfree name hnew

/-- Further keywords are bound beside the other arguments. -/
theorem Extends.bound_perm (h : called.Extends args fields) :
    (called.bound callee params).values.Perm ((args.bound callee params).values ++ fields) := by
  rw [bound, bound, h.positional, List.append_assoc]
  exact h.keywords.append_left _

/-- Further keywords are left by what does not take them. -/
theorem Extends.without_perm (h : called.Extends args fields) {taken : List String}
    (hfree : ∀ name ∈ fields.names, name ∉ taken) :
    ((called.bound callee params).without taken).values.Perm
      (((args.bound callee params).without taken).values ++ fields) := by
  have hkept : fields.filter (fun entry => !taken.contains entry.1) = fields := by
    refine List.filter_eq_self.2 fun entry hentry => ?_
    simpa using hfree entry.1 (List.mem_map_of_mem hentry)
  have hbound : (called.bound callee params).values.Perm
      ((args.bound callee params).values ++ fields) := h.bound_perm
  have hfilter := hbound.filter fun entry => !taken.contains entry.1
  rwa [List.filter_append, hkept] at hfilter

/-- Further keywords change nothing under other names. -/
theorem Extends.lookup_bound (h : called.Extends args fields) (hp : params.Nodup)
    (hcalled : called.Fits params) {name : String} (hname : name ∉ fields.names) :
    (called.bound callee params).values.lookup name =
      (args.bound callee params).values.lookup name := by
  have hbound : (called.bound callee params).values.Perm
      ((args.bound callee params).values ++ fields) := h.bound_perm
  have hnodup : (((args.bound callee params).values ++ fields).map Prod.fst).Nodup :=
    (hbound.map Prod.fst).nodup_iff.1 (hcalled.nodup hp)
  have hnone : fields.lookup name = none := Entries.lookup_eq_none_iff.2 hname
  rw [Entries.lookup_of_perm hbound hnodup, List.lookup_append, hnone, Option.or_none]

end Arguments

end LandPattern
