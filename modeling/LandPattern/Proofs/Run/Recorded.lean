import LandPattern.Proofs.Run.Sizes

/-!
# Recorded depths

A list or tuple records how deep it is nested, and a write brings the record up to date without a
walk through the items. The record is never too low. It is exact as long as no write takes the
deepest items away; a write that does leaves the record where it was, so that a value can be refused
for a depth that it no longer has.
-/

namespace LandPattern

/-! ## Heights of items -/

theorem heightOf_lt {items : List Value} (depth : Nat) (hd : 1 ≤ depth)
    (h : ∀ item ∈ items, item.height < depth) : heightOf items < depth := by
  have hbound : heightOf items ≤ depth - 1 := heightOf_le fun item hitem => by
    have hitem := h item hitem
    omega
  omega

/-- Items that are all among others are no higher than these. -/
theorem heightOf_mono {items others : List Value} (h : ∀ item ∈ items, item ∈ others) :
    heightOf items ≤ heightOf others :=
  heightOf_le fun item hitem => height_le_heightOf (h item hitem)

/-- What is recorded for a value and what it counts are those of its items. -/
theorem Value.depth_height (v : Value) : v.depth = 0 ∧ v.height = 0 ∨
    ∃ s, v.sequence? = some s ∧ v.depth = s.depth ∧ v.height = heightOf s.items + 1 := by
  cases hs : v.sequence? with
  | none =>
    refine .inl ⟨depth_eq_zero hs, ?_⟩
    cases v <;> first | rfl | cases hs
  | some s => exact .inr ⟨s, rfl, depth_eq hs, height_eq hs⟩

/-! ## Writes -/

namespace Sequence

/-- The lists and tuples that come of any series of writes, to themselves and to the lists and
tuples inside them. Where an item is replaced, or taken out, `keeps` says which items may take the
place of which. -/
inductive Written (keeps : List Value → List Value → Prop) : Sequence Value → Prop where
  | created {items : List Value}
    (hi : ∀ item ∈ items, ∀ t, item.sequence? = some t → Written keeps t) (stamp : Nat) :
    Written keeps (ofItems items stamp)
  | updated {s : Sequence Value} {item : Value} {position : Nat} (hs : Written keeps s)
    (hp : position < s.items.length) (hi : ∀ t, item.sequence? = some t → Written keeps t)
    (hk : keeps s.items (s.items.set position item)) (stamp : Nat) :
    Written keeps (s.set position item stamp)
  | pushed {s : Sequence Value} {item : Value} (hs : Written keeps s)
    (hi : ∀ t, item.sequence? = some t → Written keeps t) (stamp : Nat) :
    Written keeps (s.push item stamp)
  | popped {s rest : Sequence Value} {last : Value} {stamp : Nat} (hs : Written keeps s)
    (hp : s.pop? stamp = some (rest, last)) (hk : keeps s.items rest.items) : Written keeps rest
  | removed {s : Sequence Value} {position : Nat} (hs : Written keeps s)
    (hp : position < s.items.length) (hk : keeps s.items (s.items.eraseIdx position))
    (stamp : Nat) : Written keeps (s.erase position stamp)
  | extended {s t : Sequence Value} (hs : Written keeps s) (ht : Written keeps t) (stamp : Nat) :
    Written keeps (s.append t stamp)

/-- The items afterwards are nested no less deep than those before. -/
def KeepsDeepest (before after : List Value) : Prop := heightOf before ≤ heightOf after

/-- Taking the last item leaves the record as it is. -/
theorem eq_of_pop? {s rest : Sequence Value} {last : Value} {stamp : Nat}
    (h : s.pop? stamp = some (rest, last)) :
    rest = ⟨s.items.dropLast, s.depth, stamp⟩ ∧ s.items.getLast? = some last := by
  obtain ⟨found, hfound, heq⟩ := Option.map_eq_some_iff.1 h
  cases heq
  exact ⟨rfl, hfound⟩

namespace Written

variable {keeps : List Value → List Value → Prop} {s : Sequence Value}

/-- The lists and tuples among the items come of writes as well. -/
theorem items (h : s.Written keeps) :
    ∀ item ∈ s.items, ∀ t, item.sequence? = some t → t.Written keeps := by
  induction h with
  | created hi stamp => exact hi
  | updated hs hp hi hk stamp ih =>
    intro v hv
    rcases List.mem_or_eq_of_mem_set hv with hold | rfl
    · exact ih v hold
    · exact hi
  | pushed hs hi stamp ih =>
    intro v hv
    rcases List.mem_append.1 hv with hold | hnew
    · exact ih v hold
    · rw [List.mem_singleton.1 hnew]
      exact hi
  | popped hs hp hk ih =>
    obtain ⟨rfl, -⟩ := eq_of_pop? hp
    exact fun v hv => ih v ((List.dropLast_sublist _).mem hv)
  | removed hs hp hk stamp ih => exact fun v hv => ih v (List.mem_of_mem_eraseIdx hv)
  | extended hs ht stamp ih iht =>
    intro v hv
    rcases List.mem_append.1 hv with hleft | hright
    · exact ih v hleft
    · exact iht v hright

/-- The lists and tuples at every level of nesting come of writes as well. -/
theorem inside {v part : Value} (hp : part.Inside v)
    (h : ∀ t, v.sequence? = some t → t.Written keeps) :
    ∀ t, part.sequence? = some t → t.Written keeps := by
  induction hp with
  | self => exact h
  | item hs hi _ ih => exact ih ((h _ hs).items _ hi)

/-- The record is never below what the items count. -/
theorem height_lt (h : s.Written keeps) : heightOf s.items < s.depth := by
  have hvalue : ∀ {v : Value},
      (∀ t, v.sequence? = some t → heightOf t.items < t.depth) → v.height ≤ v.depth := by
    intro v hv
    rcases v.depth_height with ⟨-, hheight⟩ | ⟨t, ht, hdepth, hheight⟩
    · omega
    · have hrecord := hv t ht
      omega
  induction h with
  | created hi stamp ih =>
    refine heightOf_lt _ (Nat.le_add_right 1 _) fun item hitem => ?_
    exact Nat.lt_of_le_of_lt (hvalue (ih item hitem)) (depth_lt_depthOf hitem)
  | @updated s item position hs hp hi hk stamp ih ihi =>
    refine heightOf_lt (max s.depth (item.depth + 1)) (by omega) fun v hv => ?_
    rcases List.mem_or_eq_of_mem_set hv with hold | rfl
    · have hheight := height_le_heightOf hold
      omega
    · have hheight := hvalue ihi
      omega
  | @pushed s item hs hi stamp ih ihi =>
    refine heightOf_lt (max s.depth (item.depth + 1)) (by omega) fun v hv => ?_
    rcases List.mem_append.1 hv with hold | hnew
    · have hheight := height_le_heightOf hold
      omega
    · have hheight := hvalue ihi
      rw [List.mem_singleton.1 hnew]
      omega
  | popped hs hp hk ih =>
    obtain ⟨rfl, -⟩ := eq_of_pop? hp
    exact Nat.lt_of_le_of_lt (heightOf_mono fun _ hv => (List.dropLast_sublist _).mem hv) ih
  | removed hs hp hk stamp ih =>
    exact Nat.lt_of_le_of_lt (heightOf_mono fun _ hv => List.mem_of_mem_eraseIdx hv) ih
  | @extended s t hs ht stamp ih iht =>
    refine heightOf_lt (max s.depth t.depth) (by omega) fun v hv => ?_
    rcases List.mem_append.1 hv with hleft | hright
    · have hheight := height_le_heightOf hleft
      omega
    · have hheight := height_le_heightOf hright
      omega

/-- Where no write takes the deepest items away, the record is not above what the items count. -/
theorem le_height (hk : ∀ before after, keeps before after → KeepsDeepest before after)
    (h : s.Written keeps) : s.depth ≤ heightOf s.items + 1 := by
  have hvalue : ∀ {v : Value},
      (∀ t, v.sequence? = some t → t.depth ≤ heightOf t.items + 1) → v.depth ≤ v.height := by
    intro v hv
    rcases v.depth_height with ⟨hdepth, -⟩ | ⟨t, ht, hdepth, hheight⟩
    · omega
    · have hrecord := hv t ht
      omega
  induction h with
  | @created items hi stamp ih =>
    refine depthOf_le (Nat.le_add_left 1 _) fun item hitem => ?_
    exact Nat.lt_succ_of_le (Nat.le_trans (hvalue (ih item hitem)) (height_le_heightOf hitem))
  | @updated s item position hs hp hi hkept stamp ih ihi =>
    have hitem : item ∈ s.items.set position item := List.mem_set hp item
    have hdepth := Nat.le_trans (hvalue ihi) (height_le_heightOf hitem)
    have hold : heightOf s.items ≤ heightOf (s.items.set position item) := hk _ _ hkept
    change max s.depth (item.depth + 1) ≤ heightOf (s.items.set position item) + 1
    omega
  | @pushed s item hs hi stamp ih ihi =>
    have hitem : item ∈ s.items ++ [item] := List.mem_append_right _ List.mem_cons_self
    have hdepth := Nat.le_trans (hvalue ihi) (height_le_heightOf hitem)
    have hold : heightOf s.items ≤ heightOf (s.items ++ [item]) :=
      heightOf_mono fun _ hv => List.mem_append_left _ hv
    change max s.depth (item.depth + 1) ≤ heightOf (s.items ++ [item]) + 1
    omega
  | popped hs hp hkept ih =>
    have hold := hk _ _ hkept
    obtain ⟨rfl, -⟩ := eq_of_pop? hp
    exact Nat.le_trans ih (Nat.succ_le_succ hold)
  | removed hs hp hkept stamp ih => exact Nat.le_trans ih (Nat.succ_le_succ (hk _ _ hkept))
  | @extended s t hs ht stamp ih iht =>
    have hleft : heightOf s.items ≤ heightOf (s.items ++ t.items) :=
      heightOf_mono fun _ hv => List.mem_append_left _ hv
    have hright : heightOf t.items ≤ heightOf (s.items ++ t.items) :=
      heightOf_mono fun _ hv => List.mem_append_right _ hv
    change max s.depth t.depth ≤ heightOf (s.items ++ t.items) + 1
    omega

/-- Where no write takes the deepest items away, the record is what the items count. -/
theorem depth_eq_height (hk : ∀ before after, keeps before after → KeepsDeepest before after)
    (h : s.Written keeps) : s.depth = heightOf s.items + 1 :=
  Nat.le_antisymm (h.le_height hk) h.height_lt

end Written

/-! ## Records above the count -/

/-- So many lists, one inside the other. -/
def tower : Nat → Value
  | 0 => .nothing
  | n + 1 => .list (ofItems [tower n] 0)

theorem depth_tower (n : Nat) : (tower n).depth = n := by
  induction n with
  | zero => rfl
  | succ n ih =>
    change 1 + max 0 (tower n).depth = n + 1
    omega

theorem written_tower (n : Nat) :
    ∀ t, (tower n).sequence? = some t → t.Written fun _ _ => True := by
  induction n with
  | zero => exact fun _ ht => by cases ht
  | succ n ih =>
    intro t ht
    cases ht
    refine .created (fun item hitem => ?_) 0
    rw [List.mem_singleton.1 hitem]
    exact ih

/-- Every record from the one of new items up can be left by writes: a deep item is added and taken
away again. -/
theorem written_of_depthOf_le {items : List Value} {depth : Nat}
    (hi : ∀ item ∈ items, ∀ t, item.sequence? = some t → t.Written fun _ _ => True)
    (hd : depthOf items ≤ depth) (stamp : Nat) :
    (⟨items, depth, stamp⟩ : Sequence Value).Written fun _ _ => True := by
  have hpositive : 1 ≤ depthOf items := Nat.le_add_right 1 _
  have hdepth : depthOf (items ++ [tower (depth - 1)]) = depth := by
    refine Nat.le_antisymm (depthOf_le (by omega) fun item hitem => ?_) ?_
    · rcases List.mem_append.1 hitem with hold | hnew
      · exact Nat.lt_of_lt_of_le (depth_lt_depthOf hold) hd
      · rw [List.mem_singleton.1 hnew, depth_tower]
        omega
    · have hmem : tower (depth - 1) ∈ items ++ [tower (depth - 1)] :=
        List.mem_append_right _ List.mem_cons_self
      have hlast := depth_lt_depthOf hmem
      rw [depth_tower] at hlast
      omega
  have hfull : (ofItems (items ++ [tower (depth - 1)]) 0).Written fun _ _ => True := by
    refine .created (fun item hitem => ?_) 0
    rcases List.mem_append.1 hitem with hold | hnew
    · exact hi item hold
    · rw [List.mem_singleton.1 hnew]
      exact written_tower _
  have hpop : (ofItems (items ++ [tower (depth - 1)]) 0).pop? stamp =
      some (⟨items, depth, stamp⟩, tower (depth - 1)) := by
    simp [pop?, ofItems, hdepth]
  exact hfull.popped hpop trivial

end Sequence

/-- The lists and tuples of a sound value come of some series of writes, if not of the one that made
them. -/
theorem Value.Sound.written {b : Bounds} {v : Value} (h : v.Sound b) :
    ∀ s, v.sequence? = some s → s.Written fun _ _ => True := by
  induction h with
  | atom hnone _ =>
    intro s hs
    rw [hnone] at hs
    cases hs
  | sequence hsome length positive items deeper ih =>
    intro s hs
    rw [hsome] at hs
    cases hs
    exact Sequence.written_of_depthOf_le ih (Sequence.depthOf_le positive deeper) _

/-- A sequence that is not too long is refused for its nesting by what is recorded. -/
theorem Metered.checkSequence_tooDeep_iff (s : Sequence Value) (limits : Limits) (meter : Meter) :
    ((checkSequence s).outcome limits meter).1 =
        .error (Fault.refusal (.tooDeep limits.valueDepth)) ↔
      s.length ≤ limits.collection ∧ limits.valueDepth < s.depth := by
  rcases Nat.lt_or_ge limits.collection s.length with hlong | hlength
  · have hrun : (checkSequence s).outcome limits meter =
        (.error (Fault.refusal (.tooLong s.length limits.collection)), meter) := by
      simp [checkSequence, checkLength, Act.outcome_bind, refuse, hlong]
    rw [hrun]
    refine ⟨fun heq => (by cases heq), fun h => ?_⟩
    omega
  · rcases Nat.lt_or_ge limits.valueDepth s.depth with hdeep | hdepth
    · have hrun : (checkSequence s).outcome limits meter =
          (.error (Fault.refusal (.tooDeep limits.valueDepth)), meter) := by
        simp [checkSequence, checkLength, checkDepth, Act.outcome_bind, refuse,
          Nat.not_lt.2 hlength, hdeep]
      rw [hrun]
      exact ⟨fun _ => ⟨hlength, hdeep⟩, fun _ => rfl⟩
    · have hrun : (checkSequence s).outcome limits meter = (.ok (), meter) := by
        simp [checkSequence, checkLength, checkDepth, Act.outcome_bind, Nat.not_lt.2 hlength,
          Nat.not_lt.2 hdepth]
      rw [hrun]
      refine ⟨fun heq => (by cases heq), fun h => ?_⟩
      omega

/-- All lists and tuples at all moments of a run come of some series of writes. -/
theorem Script.Program.run_written {depths : Depths} {source : String} {program : Program}
    (h : Program.ofText depths source = .ok program) (limits : Limits) {moment : Moment}
    (hm : (program.run limits).2.history moment) {v part : Value} (hv : v ∈ moment.values)
    (hp : part.Inside v) : ∀ s, part.sequence? = some s → s.Written fun _ _ => True :=
  have hall := Program.run_within h limits
  (((hall.history moment hm).mem_values v hv).inside hp).sound.written

/-- Every list and tuple that comes of writes records at least how deep it is nested. Where no write
takes the deepest items away it records just that, at every level of nesting, and is refused for its
nesting exactly when it is not too long and nested deeper than the limit. -/
theorem Sequence.depth_recorded {keeps : List Value → List Value → Prop} {s : Sequence Value}
    (h : s.Written keeps) (limits : Limits) (meter : Meter) :
    heightOf s.items + 1 ≤ s.depth ∧
    ((∀ before after, keeps before after → KeepsDeepest before after) →
      s.depth = heightOf s.items + 1 ∧
      (∀ part : Value, part.Inside (.list s) → part.depth = part.height) ∧
      (((Metered.checkSequence s).outcome limits meter).1 =
          .error (Fault.refusal (.tooDeep limits.valueDepth)) ↔
        s.length ≤ limits.collection ∧ limits.valueDepth < heightOf s.items + 1)) := by
  refine ⟨h.height_lt, fun hk => ?_⟩
  have hrecord := h.depth_eq_height hk
  refine ⟨hrecord, fun part hp => ?_, by rw [Metered.checkSequence_tooDeep_iff, hrecord]⟩
  have hwhole : ∀ t, (Value.list s).sequence? = some t → t.Written keeps := by
    intro t ht
    cases ht
    exact h
  have hpart := Written.inside hp hwhole
  rcases part.depth_height with ⟨hdepth, hheight⟩ | ⟨t, ht, hdepth, hheight⟩
  · rw [hdepth, hheight]
  · rw [hdepth, hheight]
    exact (hpart t ht).depth_eq_height hk

/-- The list `[[1], 2]`, made by adding a number to `[[1]]`, records its two levels, and is refused
where one is allowed. -/
theorem Sequence.depth_recorded_pushed :
    ((ofItems [.list (ofItems [.int 1] 0)] 1).push (.int 2) 2).Written KeepsDeepest ∧
    ((ofItems [.list (ofItems [.int 1] 0)] 1).push (.int 2) 2).depth = 2 ∧
    ((Metered.checkSequence ((ofItems [.list (ofItems [.int 1] 0)] 1).push (.int 2) 2)).outcome
        { Limits.standard with valueDepth := 1 } Meter.zero).1 =
      .error (Fault.refusal (.tooDeep 1)) := by
  have hinner : (ofItems [.int 1] 0 : Sequence Value).Written KeepsDeepest := by
    refine .created (fun item hitem t ht => ?_) 0
    rw [List.mem_singleton.1 hitem] at ht
    cases ht
  have houter : (ofItems [.list (ofItems [.int 1] 0)] 1).Written KeepsDeepest := by
    refine .created (fun item hitem t ht => ?_) 1
    rw [List.mem_singleton.1 hitem] at ht
    cases ht
    exact hinner
  have hpushed : ((ofItems [.list (ofItems [.int 1] 0)] 1).push (.int 2) 2).Written
      KeepsDeepest := houter.pushed (fun _ ht => by cases ht) 2
  obtain ⟨-, hexact⟩ := depth_recorded hpushed { Limits.standard with valueDepth := 1 } Meter.zero
  obtain ⟨hdepth, -, hrefused⟩ := hexact fun _ _ hkept => hkept
  exact ⟨hpushed, hdepth, hrefused.2 ⟨by decide, by decide⟩⟩

/-- The one list of a list of two levels is taken out: nothing is left inside, three levels are
still recorded, and what is left is refused where two are allowed. -/
theorem Sequence.depth_stale :
    (¬ ∀ s : Sequence Value, s.Written (fun _ _ => True) → s.depth = heightOf s.items + 1) ∧
    ¬ ∀ (s : Sequence Value) (limits : Limits) (meter : Meter), s.Written (fun _ _ => True) →
      ((Metered.checkSequence s).outcome limits meter).1 =
        .error (Fault.refusal (.tooDeep limits.valueDepth)) →
      limits.valueDepth < heightOf s.items + 1 := by
  have hwritten : (⟨[], 3, 0⟩ : Sequence Value).Written fun _ _ => True := by
    have hfull : (ofItems [tower 2] 0).Written fun _ _ => True := by
      refine .created (fun item hitem => ?_) 0
      rw [List.mem_singleton.1 hitem]
      exact written_tower 2
    have hpop : (ofItems [tower 2] 0).pop? 0 = some (⟨[], 3, 0⟩, tower 2) := rfl
    exact hfull.popped hpop trivial
  constructor
  · intro h
    have hdepth : 3 = 0 + 1 := h _ hwritten
    cases hdepth
  · intro h
    have hrefused := (Metered.checkSequence_tooDeep_iff ⟨[], 3, 0⟩
      { Limits.standard with valueDepth := 2 } Meter.zero).2 ⟨by decide, by decide⟩
    have hdeep : 2 < 0 + 1 := h _ _ _ hwritten hrefused
    omega

end LandPattern
