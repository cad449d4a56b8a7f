/-!
# Names and what stands under them

Lists of names with something under each of them, as records, scopes and arguments are. Where no
name occurs twice, such a list is told by what stands under each name.
-/

namespace LandPattern.Entries

variable {α β : Type} {entries other : List (String × α)} {name : String} {x : α}

theorem isSome_lookup_iff : (entries.lookup name).isSome ↔ name ∈ entries.map Prod.fst := by
  induction entries with
  | nil => simp
  | cons entry rest ih =>
    obtain ⟨key, w⟩ := entry
    by_cases hsame : name = key
    · simp [hsame]
    · simp [List.lookup_cons, beq_eq_false_iff_ne.2 hsame, hsame, ih]

theorem lookup_eq_none_iff : entries.lookup name = none ↔ name ∉ entries.map Prod.fst := by
  rw [← isSome_lookup_iff, Option.not_isSome_iff_eq_none]

theorem lookup_eq_some_iff (h : (entries.map Prod.fst).Nodup) :
    entries.lookup name = some x ↔ (name, x) ∈ entries := by
  induction entries with
  | nil => simp
  | cons entry rest ih =>
    obtain ⟨key, w⟩ := entry
    obtain ⟨hkey, hrest⟩ := List.nodup_cons.1 h
    by_cases hsame : name = key
    · subst hsame
      have hmissing : (name, x) ∉ rest := fun hmem =>
        hkey (List.mem_map.2 ⟨(name, x), hmem, rfl⟩)
      simp [hmissing, eq_comm]
    · rw [List.lookup_cons, beq_eq_false_iff_ne.2 hsame, ih hrest]
      simp [hsame]

/-- Where no name occurs twice, the order of the entries does not matter. -/
theorem lookup_of_perm (hp : other.Perm entries) (h : (entries.map Prod.fst).Nodup)
    (name : String) : other.lookup name = entries.lookup name := by
  have hother : (other.map Prod.fst).Nodup := (hp.map Prod.fst).nodup_iff.2 h
  refine Option.ext fun x => ?_
  rw [lookup_eq_some_iff h, lookup_eq_some_iff hother, hp.mem_iff]

theorem lookup_filter (keep : String → Bool) (entries : List (String × α)) (name : String) :
    (entries.filter fun entry => keep entry.1).lookup name =
      if keep name = true then entries.lookup name else none := by
  induction entries with
  | nil => split <;> rfl
  | cons entry rest ih =>
    obtain ⟨key, v⟩ := entry
    by_cases hkey : keep key = true
    · rw [List.filter_cons_of_pos (by exact hkey), List.lookup_cons, List.lookup_cons, ih]
      by_cases hsame : name = key
      · subst hsame
        simp [hkey]
      · simp [beq_eq_false_iff_ne.2 hsame]
    · rw [List.filter_cons_of_neg (by exact hkey), ih, List.lookup_cons]
      by_cases hsame : name = key
      · subst hsame
        simp [hkey]
      · simp [beq_eq_false_iff_ne.2 hsame]

theorem filter_of_not_mem (h : name ∉ entries.map Prod.fst) :
    entries.filter (fun entry => entry.1 != name) = entries := by
  refine List.filter_eq_self.2 fun entry hentry => bne_iff_ne.2 ?_
  rintro rfl
  exact h (List.mem_map_of_mem hentry)

/-- Where no name occurs twice, what stands under a name can be taken out. -/
theorem perm_of_lookup (h : (entries.map Prod.fst).Nodup) (hx : entries.lookup name = some x) :
    entries.Perm ((name, x) :: entries.filter fun entry => entry.1 != name) := by
  induction entries with
  | nil => cases hx
  | cons entry rest ih =>
    obtain ⟨key, w⟩ := entry
    obtain ⟨hkey, hrest⟩ := List.nodup_cons.1 h
    by_cases hsame : name = key
    · subst hsame
      rw [List.lookup_cons_self] at hx
      cases hx
      have hfirst : ¬ (name != name) = true := fun hne => bne_iff_ne.1 hne rfl
      rw [List.filter_cons_of_neg (by exact hfirst), filter_of_not_mem hkey]
    · rw [List.lookup_cons, beq_eq_false_iff_ne.2 hsame] at hx
      rw [List.filter_cons_of_pos (by exact bne_iff_ne.2 (Ne.symm hsame))]
      exact ((ih hrest hx).cons (key, w)).trans (List.Perm.swap _ _ _)

/-- What is changed without a look at its name is found where it was. -/
theorem lookup_map (change : α → β) (entries : List (String × α)) (name : String) :
    (entries.map fun entry => (entry.1, change entry.2)).lookup name =
      (entries.lookup name).map change := by
  induction entries with
  | nil => rfl
  | cons entry rest ih =>
    rw [List.map_cons, List.lookup_cons, List.lookup_cons, ih]
    cases name == entry.1 <;> rfl

/-- Entries are told by their names, in order, and by what stands under them. -/
theorem eq_of_lookup (hn : other.map Prod.fst = entries.map Prod.fst)
    (h : (entries.map Prod.fst).Nodup)
    (hl : ∀ name ∈ entries.map Prod.fst, other.lookup name = entries.lookup name) :
    other = entries := by
  induction entries generalizing other with
  | nil => exact List.map_eq_nil_iff.1 hn
  | cons entry rest ih =>
    obtain ⟨key, v⟩ := entry
    cases other with
    | nil => cases hn
    | cons first others =>
      obtain ⟨found, w⟩ := first
      obtain ⟨rfl, hrest⟩ := List.cons.inj hn
      obtain ⟨hkey, hdistinct⟩ := List.nodup_cons.1 h
      obtain ⟨hfirst, hothers⟩ := List.forall_mem_cons.1 hl
      rw [List.lookup_cons_self, List.lookup_cons_self] at hfirst
      cases hfirst
      refine congrArg _ (ih hrest hdistinct fun name hname => ?_)
      have hne : name ≠ found := fun heq => hkey (heq ▸ hname)
      have hlater := hothers name hname
      rwa [List.lookup_cons, List.lookup_cons, beq_eq_false_iff_ne.2 hne] at hlater

end LandPattern.Entries
