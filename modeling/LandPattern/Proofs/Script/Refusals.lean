import LandPattern.Proofs.Script.Completion
import LandPattern.Proofs.Script.Placeless

/-!
# The first impossible token

A row of tokens that is refused is refused at the earliest token at which this is certain. The
tokens before the one that the diagnostic names are the beginning of some script, and together with
it they begin none. The end of the tokens counts as the last of them.
-/

namespace LandPattern.Script

/-- The words that carry meaning, and the end behind them. -/
def endedWords (tokens : List Placed) : List (Option Token) :=
  (words (significant tokens)).map some ++ [none]

/-- The diagnostic tells that the token at this position was found where it cannot stand, or the end
behind all tokens, which is marked at the last of them. -/
def Diagnostic.Finds (d : Diagnostic) (tokens : List Placed) (position : Nat) : Prop :=
  d.problem.code = "E100" ∧ match (significant tokens)[position]? with
    | some t => d.labels = [⟨t.span, "found `" ++ t.token.written ++ "`", true⟩]
    | none => position = (significant tokens).length ∧
      d.labels = [⟨((significant tokens).getLast?.map Placed.span).getD ⟨0, 0⟩,
        "found end of input", true⟩]

/-- Where reading fails, some of the tokens were passed over, and the next one is refused. -/
theorem Draft.reaches_of_read_error {d : Draft} {tokens : List Placed} {expected : Expectation}
    {found : Option Placed} (h : d.read tokens = .error (expected, found)) :
    ∃ (before : List Placed) (last : Draft), d.Reaches before last ∧
      ((∃ t after, found = some t ∧ tokens = before ++ t :: after ∧
          last.step t = .error expected) ∨
        (found = none ∧ tokens = before ∧ last.finish = .error expected)) := by
  induction tokens generalizing d with
  | nil =>
    refine ⟨[], d, .refl d, .inr ?_⟩
    simp only [Draft.read] at h
    split at h
    · cases h
    · rename_i hfinish
      cases h
      exact ⟨rfl, rfl, hfinish⟩
  | cons t rest ih =>
    simp only [Draft.read] at h
    split at h
    · rename_i next hstep
      obtain ⟨before, last, hreach, hlast⟩ := ih h
      refine ⟨t :: before, last, .step hstep hreach, ?_⟩
      rcases hlast with ⟨u, after, hfound, rfl, hrefused⟩ | ⟨hfound, rfl, hrefused⟩
      · exact .inl ⟨u, after, hfound, rfl, hrefused⟩
      · exact .inr ⟨hfound, rfl, hrefused⟩
    · rename_i hstep
      cases h
      exact ⟨[], d, .refl d, .inl ⟨t, rest, rfl, rfl, hstep⟩⟩

theorem Draft.Reaches.placeless {d last : Draft} {tokens : List Placed} (h : d.Reaches tokens last) :
    d.placeless.Reaches (tokens.map Placed.placeless) last.placeless := by
  induction h with
  | refl d => exact .refl _
  | @step d next last t ts hs _ ih =>
    refine .step ?_ ih
    rw [Draft.step_placeless, hs]
    rfl

/-- A script whose tokens begin with these words was read from the draft that they lead to. -/
theorem Draft.Reaches.read_of_words {before rest others : List Placed} {last : Draft} {p : Program}
    (h : Draft.start.Reaches before last) (hp : Program.ofTokens others = .ok p)
    (hw : words (significant others) = words (before ++ rest)) :
    last.placeless.read (rest.map Placed.placeless) = .ok p.bare := by
  have hread : Draft.start.read (significant others) = .ok p := Program.ofTokens_eq_ok_iff.1 hp
  have hplaceless := Draft.read_placeless Draft.start (significant others)
  rw [hread, map_placeless_eq hw, List.map_append, h.placeless.read_append] at hplaceless
  exact hplaceless

section Words

variable {α : Type} {xs ys : List α}

/-- A row that does not reach the end is a beginning of what stands before the end. -/
theorem isPrefix_of_map_some (h : xs.map some <+: ys.map some ++ [none]) : xs <+: ys := by
  induction xs generalizing ys with
  | nil => exact List.nil_prefix
  | cons x rest ih =>
    cases ys with
    | nil =>
      rw [List.map_cons, List.map_nil, List.nil_append, List.cons_prefix_cons] at h
      cases h.1
    | cons y more =>
      rw [List.map_cons, List.map_cons, List.cons_append, List.cons_prefix_cons] at h
      rw [List.cons_prefix_cons]
      exact ⟨Option.some.inj h.1, ih h.2⟩

/-- A row that reaches the end is the whole row. -/
theorem eq_of_map_some_end (h : xs.map some ++ [none] <+: ys.map some ++ [none]) : xs = ys := by
  have hshort : xs <+: ys := isPrefix_of_map_some (List.IsPrefix.trans (List.prefix_append _ _) h)
  obtain ⟨more, rfl⟩ := hshort
  rw [List.map_append, List.append_assoc, List.prefix_append_right_inj] at h
  cases more with
  | nil => rw [List.append_nil]
  | cons x rest =>
    rw [List.map_cons, List.cons_append, List.cons_prefix_cons] at h
    cases h.1

end Words

theorem significant_eq_self_of_isPrefix {tokens before : List Placed}
    (h : before <+: significant tokens) : significant before = before := by
  refine List.filter_eq_self.2 fun t ht => ?_
  exact (List.mem_filter.1 (h.subset ht)).2

/-- Nothing that is found has the name of the end. -/
theorem found_ne_end (written : String) : "found `" ++ written ++ "`" ≠ "found end of input" := by
  intro h
  have hchars := congrArg String.toList h
  simp [String.toList_append] at hchars

/-- Where no two tokens stand at one place, one position at most is told as found. -/
theorem Diagnostic.Finds.unique {d : Diagnostic} {tokens : List Placed} {j k : Nat}
    (hd : ((significant tokens).map Placed.span).Nodup) (hj : d.Finds tokens j)
    (hk : d.Finds tokens k) : j = k := by
  obtain ⟨-, hj⟩ := hj
  obtain ⟨-, hk⟩ := hk
  cases htj : (significant tokens)[j]? with
  | none =>
    rw [htj] at hj
    cases htk : (significant tokens)[k]? with
    | none =>
      rw [htk] at hk
      rw [hj.1, hk.1]
    | some u =>
      rw [htk] at hk
      have htext := hj.2.symm.trans hk
      simp only [List.cons.injEq, Label.mk.injEq, and_true] at htext
      exact absurd htext.2.symm (found_ne_end _)
  | some t =>
    rw [htj] at hj
    cases htk : (significant tokens)[k]? with
    | none =>
      rw [htk] at hk
      have htext := hj.symm.trans hk.2
      simp only [List.cons.injEq, Label.mk.injEq, and_true] at htext
      exact absurd htext.2 (found_ne_end _)
    | some u =>
      rw [htk] at hk
      have hspan := hj.symm.trans hk
      simp only [List.cons.injEq, Label.mk.injEq, and_true] at hspan
      have hlt : j < ((significant tokens).map Placed.span).length := by
        rw [List.length_map]
        exact (List.getElem?_eq_some_iff.1 htj).1
      refine (List.getElem?_inj hlt hd).1 ?_
      rw [List.getElem?_map, List.getElem?_map, htj, htk, Option.map_some, Option.map_some,
        hspan.1]

section Impossible

variable {before after tokens others : List Placed} {last : Draft} {t : Placed} {p : Program}
variable {expected : Expectation}

/-- No script has a token behind others that is refused there. -/
theorem Draft.Reaches.not_isPrefix_of_step (h : Draft.start.Reaches before last)
    (ht : significant tokens = before ++ t :: after) (hrefused : last.step t = .error expected)
    (hp : Program.ofTokens others = .ok p) :
    ¬ (endedWords tokens).take (before.length + 1) <+: endedWords others := by
  intro hprefix
  have hsplit : endedWords tokens =
      (words (before ++ [t])).map some ++ ((words after).map some ++ [none]) := by
    rw [endedWords, ht]
    simp [words]
  have hwords : (endedWords tokens).take (before.length + 1) =
      (words (before ++ [t])).map some := by
    rw [hsplit]
    exact List.take_left' (by simp [words])
  rw [hwords] at hprefix
  obtain ⟨more, hmore⟩ := isPrefix_of_map_some hprefix
  have hothers : words (significant others) =
      words (before ++ t :: more.map Token.anywhere) := by
    have hsame : more.map (Placed.token ∘ Token.anywhere) = more := List.map_id' more
    rw [← hmore]
    simp [words, hsame]
  have hafter := h.read_of_words hp hothers
  simp only [List.map_cons, Draft.read, Draft.step_placeless, hrefused] at hafter
  cases hafter

/-- No script ends behind tokens where the end is refused. -/
theorem Draft.Reaches.not_isPrefix_of_finish (h : Draft.start.Reaches before last)
    (ht : significant tokens = before) (hrefused : last.finish = .error expected)
    (hp : Program.ofTokens others = .ok p) :
    ¬ (endedWords tokens).take (before.length + 1) <+: endedWords others := by
  intro hprefix
  have hwords : (endedWords tokens).take (before.length + 1) = endedWords tokens :=
    List.take_of_length_le (by simp [endedWords, words, ht])
  rw [hwords] at hprefix
  have hothers : words (significant others) = words (before ++ []) := by
    rw [← eq_of_map_some_end hprefix, ht, List.append_nil]
  have hafter := h.read_of_words hp hothers
  simp only [List.map_nil, Draft.read, Draft.finish_placeless, hrefused] at hafter
  cases hafter

/-- Whatever was read without a refusal is the beginning of a script. -/
theorem Draft.Reaches.begins_script (h : Draft.start.Reaches before last)
    (hb : significant before = before) :
    ∃ others p, Program.ofTokens others = .ok p ∧ before <+: significant others := by
  obtain ⟨rest, p, hmeaning, hdone⟩ := last.completes
  have hsignificant : significant (before ++ rest) = before ++ rest := by
    rw [significant, List.filter_append]
    change significant before ++ significant rest = before ++ rest
    rw [hb, hmeaning]
  refine ⟨before ++ rest, p, ?_, ?_⟩
  · rw [Program.ofTokens, hsignificant]
    simp only [h.read_append, hdone]
  · rw [hsignificant]
    exact List.prefix_append _ _

end Impossible

/-- The diagnostic of a refused row names the first token that no script has behind the tokens
before it. No script that is accepted begins with the words up to it, and some script does begin
with the tokens before it, so no later and no earlier token could have been named. -/
theorem Program.ofTokens_first_impossible {tokens : List Placed} {d : Diagnostic}
    (h : Program.ofTokens tokens = .error d) :
    ∃ k, d.Finds tokens k ∧
      (((significant tokens).map Placed.span).Nodup → ∀ j, d.Finds tokens j → j = k) ∧
      (∀ others p, Program.ofTokens others = .ok p →
        ¬ (endedWords tokens).take (k + 1) <+: endedWords others) ∧
      ∃ others p, Program.ofTokens others = .ok p ∧
        (significant tokens).take k <+: significant others := by
  obtain ⟨⟨expected, found⟩, hread⟩ : ∃ failed, Draft.start.read (significant tokens) =
      .error failed := by
    rw [Program.ofTokens] at h
    dsimp only at h
    split at h
    · cases h
    · exact ⟨_, ‹_›⟩
    · exact ⟨_, ‹_›⟩
  obtain ⟨before, last, hreach, hlast⟩ := Draft.reaches_of_read_error hread
  have hbefore : before <+: significant tokens := by
    rcases hlast with ⟨t, after, -, heq, -⟩ | ⟨-, heq, -⟩
    · exact heq ▸ List.prefix_append _ _
    · exact heq ▸ List.prefix_rfl
  have htake : (significant tokens).take before.length = before :=
    (List.prefix_iff_eq_take.1 hbefore).symm
  have hfinds : d.Finds tokens before.length := by
    rw [Program.ofTokens] at h
    simp only [hread] at h
    rcases hlast with ⟨t, after, rfl, heq, -⟩ | ⟨rfl, heq, -⟩
    · cases h
      refine ⟨rfl, ?_⟩
      rw [heq, List.getElem?_append_right (Nat.le_refl _), Nat.sub_self, List.getElem?_cons_zero]
      rfl
    · cases h
      refine ⟨rfl, ?_⟩
      rw [heq, List.getElem?_eq_none (Nat.le_refl _)]
      exact ⟨rfl, rfl⟩
  refine ⟨before.length, hfinds, fun hd j hj => hj.unique hd hfinds, fun others p hp => ?_, ?_⟩
  · rcases hlast with ⟨t, after, -, heq, hrefused⟩ | ⟨-, heq, hrefused⟩
    · exact hreach.not_isPrefix_of_step heq hrefused hp
    · exact hreach.not_isPrefix_of_finish heq hrefused hp
  · rw [htake]
    exact hreach.begins_script (significant_eq_self_of_isPrefix hbefore)

/-- A comparison behind a comparison, as in `let a = 1 < 2 < 3;`. -/
def chainedTokens : List Placed :=
  [⟨.wordLet, ⟨0, 3⟩⟩, ⟨.blank, ⟨3, 4⟩⟩, ⟨.name "a", ⟨4, 5⟩⟩, ⟨.equals, ⟨6, 7⟩⟩, ⟨.int 1, ⟨8, 9⟩⟩,
    ⟨.less, ⟨10, 11⟩⟩, ⟨.int 2, ⟨12, 13⟩⟩, ⟨.less, ⟨14, 15⟩⟩, ⟨.int 3, ⟨16, 17⟩⟩,
    ⟨.semicolon, ⟨17, 18⟩⟩]

/-- The second comparison is named, and it is the first token that makes a script impossible. -/
theorem Program.ofTokens_first_impossible_chained :
    ∃ d, Program.ofTokens chainedTokens = .error d ∧ d.Finds chainedTokens 6 ∧
      (∀ others p, Program.ofTokens others = .ok p →
        ¬ (endedWords chainedTokens).take 7 <+: endedWords others) ∧
      ∃ others p, Program.ofTokens others = .ok p ∧
        (significant chainedTokens).take 6 <+: significant others := by
  have hrefused : Program.ofTokens chainedTokens =
      .error (.single (.unexpectedToken (.sign .semicolon)) ⟨14, 15⟩ "found `<`") := rfl
  have hfinds : Diagnostic.Finds
      (.single (.unexpectedToken (.sign .semicolon)) ⟨14, 15⟩ "found `<`") chainedTokens 6 :=
    ⟨rfl, rfl⟩
  have hplaces : ((significant chainedTokens).map Placed.span).Nodup := by decide
  obtain ⟨k, -, honly, himpossible, hpossible⟩ := Program.ofTokens_first_impossible hrefused
  obtain rfl := honly hplaces 6 hfinds
  exact ⟨_, hrefused, hfinds, himpossible, hpossible⟩

end LandPattern.Script
