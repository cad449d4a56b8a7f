import LandPattern.Proofs.Script.Breaches
import LandPattern.Proofs.Script.Edges
import LandPattern.Proofs.Script.Nodes
import LandPattern.Proofs.Script.Refusals

/-!
# Labels of diagnostics

Where the diagnostics of a text point. Those of the brackets and of the grammar point at tokens, and
those of the rules at nodes, which reach from one token to another; so all of these mark whole
characters. Those of a text that cannot be read do so too, unless a character that takes several
bytes begins no token.
-/

namespace LandPattern.Script

/-- A diagnostic that is not about a single character and whose labels mark whole ones. -/
structure Diagnostic.Whole (text : List Char) (d : Diagnostic) : Prop where
  /-- No character was found that begins no token. -/
  problem : d.problem ≠ .unexpectedCharacter
  /-- No label tears a character. -/
  labels : ∀ l ∈ d.labels, l.span.Whole text

section Whole

variable {text : List Char} {problem : Problem} {s other : Span} {remark otherRemark : String}

theorem Diagnostic.whole_single (hp : problem ≠ .unexpectedCharacter) (hs : s.Whole text) :
    (Diagnostic.single problem s remark).Whole text :=
  ⟨hp, fun l hl => by rw [List.mem_singleton.1 hl]; exact hs⟩

theorem Diagnostic.whole_related (hp : problem ≠ .unexpectedCharacter) (hs : s.Whole text)
    (ho : other.Whole text) :
    (Diagnostic.related problem s remark other otherRemark).Whole text := by
  refine ⟨hp, fun l hl => ?_⟩
  rcases List.mem_cons.1 hl with rfl | hl
  · exact hs
  · rw [List.mem_singleton.1 hl]
    exact ho

end Whole

/-! ## Brackets and grammar -/

section Tokens

variable {text : List Char} {tokens : List Placed} {d : Diagnostic}

/-- The bracket check points at a token. -/
theorem whole_of_tooDeepBracket? (ht : ∀ t ∈ tokens, t.span.Whole text) {limit depth : Nat}
    (h : tooDeepBracket? limit depth tokens = some d) : d.Whole text := by
  induction tokens generalizing depth with
  | nil => cases h
  | cons t rest ih =>
    have hrest : ∀ {level : Nat}, tooDeepBracket? limit level rest = some d → d.Whole text :=
      ih fun u hu => ht u (List.mem_cons_of_mem t hu)
    unfold tooDeepBracket? at h
    split at h
    · split at h
      · cases h
        exact Diagnostic.whole_single (by simp) (ht t List.mem_cons_self)
      · exact hrest h
    · split at h
      · exact hrest h
      · exact hrest h

/-- The grammar points at the token that was refused, at the last one, or at the start of a text
without any. -/
theorem whole_of_ofTokens (ht : ∀ t ∈ tokens, t.span.Whole text)
    (h : Program.ofTokens tokens = .error d) : d.Whole text := by
  have hsignificant : ∀ t ∈ significant tokens, t.span.Whole text :=
    fun t hmem => ht t (List.mem_of_mem_filter hmem)
  rw [Program.ofTokens] at h
  dsimp only at h
  split at h
  · cases h
  · rename_i expected t hread
    cases h
    obtain ⟨before, last, -, ⟨u, after, hfound, htokens, -⟩ | ⟨hfound, -, -⟩⟩ :=
      Draft.reaches_of_read_error hread
    · cases hfound
      refine Diagnostic.whole_single (by simp) (hsignificant t ?_)
      rw [htokens]
      exact List.mem_append_right before List.mem_cons_self
    · cases hfound
  · cases h
    refine Diagnostic.whole_single (by simp) ?_
    cases hlast : (significant tokens).getLast? with
    | none => exact ⟨.start text, .start text, Nat.le_refl _⟩
    | some t => exact hsignificant t (List.mem_of_getLast? hlast)

end Tokens

/-! ## The places of nodes -/

/-- The place is that of an extent or of something inside it. -/
inductive Extent.Holds : Extent → Span → Prop where
  | self (x : Extent) : Holds x x.span
  | part {x y : Extent} {s : Span} (hy : y ∈ x.parts) (hs : Holds y s) : Holds x s

/-- When two places together have a property that both of them have, it passes from tokens to
everything that they make up. -/
theorem Gathers.of_cover {P : Span → Prop} (hP : ∀ s other, P s → P other → P (s.cover other)) :
    Gathers fun xs => ∀ x ∈ xs, ∀ s, x.Holds s → P s where
  sublist h hs x hx := h x (hs.subset hx)
  parts := by
    intro before after x h y hy s hs
    rcases List.mem_append.1 hy with hbefore | hmore
    · exact h y (List.mem_append_left _ hbefore) s hs
    · rcases List.mem_append.1 hmore with hpart | hafter
      · exact h x (List.mem_append_right _ List.mem_cons_self) s (.part hpart hs)
      · exact h y (List.mem_append_right _ (List.mem_cons_of_mem x hafter)) s hs
  gather := by
    intro before middle after first last parts h hp y hy s hs
    rcases List.mem_append.1 hy with hbefore | hmore
    · exact h y (List.mem_append_left _ hbefore) s hs
    rcases List.mem_cons.1 hmore with rfl | hafter
    · cases hs with
      | self =>
        -- the new place reaches from the first of its neighbours to the last one
        exact hP _ _ (h first (by simp) _ (.self first)) (h last (by simp) _ (.self last))
      | part hz hs =>
        have hall := hp.subset hz
        refine h _ (List.mem_append_right _ ?_) s hs
        simp only [List.mem_cons, List.mem_append, List.not_mem_nil, or_false] at hall ⊢
        tauto
    · exact h y (by simp [hafter]) s hs
  unwrap := by
    intro before after s x h y hy t ht
    rcases List.mem_append.1 hy with hbefore | hmore
    · exact h y (List.mem_append_left _ hbefore) t ht
    rcases List.mem_cons.1 hmore with rfl | hafter
    · have hwhole := h (.mk s [x]) (List.mem_append_right _ List.mem_cons_self)
      cases ht with
      | self => exact hwhole s (.self _)
      | part hz ht => exact hwhole t (.part List.mem_cons_self (.part hz ht))
    · exact h y (List.mem_append_right _ (List.mem_cons_of_mem _ hafter)) t ht

/-- The nodes of a script stand at places of whole characters when its tokens do. -/
theorem Program.Has.whole {text : List Char} {tokens : List Placed} {p : Program}
    (ht : ∀ t ∈ tokens, t.span.Whole text) (h : Program.ofTokens tokens = .ok p) {n : Node}
    (hn : p.Has n) : n.span.Whole text := by
  have hgathers : Gathers fun xs => ∀ x ∈ xs, ∀ s, x.Holds s → s.Whole text :=
    .of_cover fun _ _ hs ho => hs.cover ho
  have htokens : ∀ x ∈ (significant tokens).map fun t => t.span.extent,
      ∀ s, x.Holds s → s.Whole text := by
    intro x hx s hs
    obtain ⟨t, hmem, rfl⟩ := List.mem_map.1 hx
    cases hs with
    | self => exact ht t (List.mem_of_mem_filter hmem)
    | part hy => exact absurd hy List.not_mem_nil
  have hplaces := hgathers.has (hgathers.ofTokens htokens h) hn
  rw [← n.span_extent]
  exact hplaces n.extent List.mem_cons_self _ (.self _)

/-! ## Rules -/

/-- The rules point at nodes of the script. -/
theorem Program.whole_of_problems {text : List Char} {p : Program}
    (hp : ∀ n, p.Has n → n.span.Whole text) {limit : Nat} {d : Diagnostic}
    (hd : d ∈ p.problems limit) : d.Whole text := by
  rw [(p.problems_perm limit).mem_iff] at hd
  simp only [Program.breaches, List.mem_append, List.mem_map, List.mem_flatMap,
    List.mem_filter] at hd
  rcases hd with (((⟨pair, hpair, rfl⟩ | ⟨f, hf, pair, hpair, rfl⟩) | ⟨target, htarget, rfl⟩) |
    ⟨root, hroot, e, he, pair, hpair, rfl⟩) | ⟨root, hroot, rfl⟩
  · obtain ⟨hfirst, hsecond⟩ := mem_of_mem_repeated hpair
    refine Diagnostic.whole_related ?_ (hp _ (has_itemName hsecond)) (hp _ (has_itemName hfirst))
    split <;> simp
  · obtain ⟨hfirst, hsecond⟩ := mem_of_mem_repeated hpair
    exact Diagnostic.whole_related (by simp) (hp _ (has_param hf hsecond))
      (hp _ (has_param hf hfirst))
  · exact Diagnostic.whole_single (by simp) (hp _ (has_target htarget.1))
  · have hcall := root.has_expressions (has_root hroot) e he
    obtain ⟨⟨value, hkeyword⟩, hpositional⟩ := mem_of_mem_misplaced hpair
    have hname : p.Has (.name pair.1) :=
      .part hcall (Expr.mem_nodes_of_mem_arguments hkeyword List.mem_cons_self)
    have hvalue : p.Has (.expression pair.2) :=
      .part hcall (Expr.mem_nodes_of_mem_arguments hpositional List.mem_cons_self)
    exact Diagnostic.whole_related (by simp) (hp _ hvalue) (hp _ hname)
  · exact Diagnostic.whole_single (by simp) (hp _ (has_root hroot.1))

/-! ## All diagnostics -/

/-- A character that takes several bytes stands at this byte. -/
def WideAt (source : String) (byte : Nat) : Prop :=
  ∃ front c rest, source.toList = front ++ c :: rest ∧ byte = byteLength front ∧ 1 < c.utf8Size

/-- How the label of a problem stands in a source. -/
structure Label.Marks (source : String) (problem : Problem) (l : Label) : Prop where
  /-- It ends no earlier than it starts. -/
  ordered : l.span.start ≤ l.span.stop
  /-- It lies in the source. -/
  within : l.span.stop ≤ source.utf8ByteSize
  /-- It starts between two characters. -/
  start : (⟨l.span.start⟩ : String.Pos.Raw).IsValid source
  /-- It ends between two characters as well, unless it is about a character of several bytes that
  begins no token. -/
  stop : (⟨l.span.stop⟩ : String.Pos.Raw).IsValid source ↔
    ¬ (problem = .unexpectedCharacter ∧ WideAt source l.span.start)

theorem Label.Marks.of_whole {source : String} {problem : Problem} {l : Label}
    (hp : problem ≠ .unexpectedCharacter) (h : l.span.Whole source.toList) :
    l.Marks source problem where
  ordered := h.ordered
  within := by
    rw [← byteLength_toList]
    exact h.stop.le
  start := edge_iff_isValid.1 h.start
  stop := iff_of_true (edge_iff_isValid.1 h.stop) fun hwide => hp hwide.1

/-- The first byte of a character is marked, which tears the character when it takes others. -/
theorem Label.marks_character {source : String} {front rest : List Char} {c : Char}
    (hs : source.toList = front ++ c :: rest) (remark : String) (primary : Bool) :
    Label.Marks source .unexpectedCharacter
      ⟨⟨byteLength front, byteLength front + 1⟩, remark, primary⟩ where
  ordered := Nat.le_succ _
  within := by
    have hc : 1 ≤ c.utf8Size := c.utf8Size_pos
    rw [← byteLength_toList, hs, byteLength_append, byteLength_cons]
    exact Nat.add_le_add_left (Nat.le_trans hc (Nat.le_add_right _ _)) _
  start := by
    rw [← edge_iff_isValid, hs]
    exact .after front _
  stop := by
    have hc : 1 ≤ c.utf8Size := c.utf8Size_pos
    rw [← edge_iff_isValid]
    constructor
    · -- the next edge behind a character of several bytes is further on
      rintro hedge ⟨-, before, wide, more, hsource, hbyte, hwide⟩
      dsimp only at hedge hbyte
      rw [hsource, hbyte] at hedge
      have hnext := hedge.next_le (Nat.lt_succ_self _)
      omega
    · intro hnarrow
      have hone : c.utf8Size = 1 := by
        by_contra hmany
        exact hnarrow ⟨rfl, front, c, rest, hs, rfl, by omega⟩
      have hedge : Edge ((front ++ [c]) ++ rest) (byteLength (front ++ [c])) := .after _ _
      rw [hs, List.append_cons]
      rwa [byteLength_append, byteLength_cons, hone] at hedge

/-- What is reported for a text that cannot be read. -/
theorem marks_of_tokenize {source : String} {problems : List Diagnostic}
    (h : tokenize source = .error problems) :
    ∀ d ∈ problems, ∀ l ∈ d.labels, l.Marks source d.problem := by
  have hproblems : problems = problemsIn source.toList := by
    rw [← lexicalProblems_eq, lexicalProblems, h]
  intro d hd l hl
  rw [hproblems] at hd
  rcases broken_of_mem_readLexemes hd with
    hnone | ⟨front, c, rest, problem, start, stop, length, hs, hread, rfl⟩
  · exact absurd hnone List.not_mem_nil
  rw [List.mem_singleton.1 hl, Nat.zero_add]
  cases breaks_of_read hread with
  | character => exact Label.marks_character hs _ _
  | whole hproblem hwhole =>
    refine .of_whole hproblem ?_
    rw [hs]
    exact hwhole.behind front

/-- Whatever is found wrong with a source, and in whichever stage, every label lies in the source
and starts between two of its characters. It ends between two of them exactly when it is not about
a character of several bytes that begins no token. -/
theorem Program.marks_of_ofText {depths : Depths} {source : String} {problems : List Diagnostic}
    (h : Program.ofText depths source = .error problems) :
    ∀ d ∈ problems, ∀ l ∈ d.labels, l.Marks source d.problem := by
  have hwhole : (∀ d ∈ problems, d.Whole source.toList) →
      ∀ d ∈ problems, ∀ l ∈ d.labels, l.Marks source d.problem :=
    fun hall d hd l hl => .of_whole (hall d hd).problem ((hall d hd).labels l hl)
  unfold Program.ofText at h
  split at h
  · rename_i htokens
    cases h
    exact marks_of_tokenize htokens
  · rename_i tokens htokens
    have hedges : ∀ t ∈ tokens, t.span.Whole source.toList :=
      fun t ht => (tokenize_eq_ok_iff.1 htokens).whole ht
    refine hwhole fun d hd => ?_
    split at h
    · rename_i hbracket
      cases h
      rw [List.mem_singleton.1 hd]
      exact whole_of_tooDeepBracket? hedges hbracket
    · split at h
      · rename_i hrefused
        cases h
        rw [List.mem_singleton.1 hd]
        exact whole_of_ofTokens hedges hrefused
      · rename_i program hprogram
        split at h
        · cases h
        · cases h
          exact program.whole_of_problems (fun n hn => hn.whole hedges hprogram) hd

/-- The sign of a currency begins no token, and behind it a text is not closed. Both hold characters
of several bytes. -/
theorem Program.marks_of_ofText_currency :
    ∃ first second, Program.ofText ⟨1, 1⟩ "€\"é" = .error [first, second] ∧
      first.labels.map Label.span = [⟨0, 1⟩] ∧ second.labels.map Label.span = [⟨3, 6⟩] ∧
      ∀ d ∈ [first, second], ∀ l ∈ d.labels, l.Marks "€\"é" d.problem := by
  have hread : readLexemes 0 0 [] [] "€\"é".toList =
      ([], [.single .unexpectedCharacter ⟨0, 1⟩ Problem.unexpectedCharacter.about,
        .single .unterminatedText ⟨3, 6⟩ Problem.unterminatedText.about]) := by decide +kernel
  have hrefused : Program.ofText ⟨1, 1⟩ "€\"é" =
      .error [.single .unexpectedCharacter ⟨0, 1⟩ Problem.unexpectedCharacter.about,
        .single .unterminatedText ⟨3, 6⟩ Problem.unterminatedText.about] := by
    rw [Program.ofText, tokenize, hread]
  exact ⟨_, _, hrefused, rfl, rfl, Program.marks_of_ofText hrefused⟩

/-- Not every label ends between two characters: of a letter with an accent one byte is marked. -/
theorem Program.ofText_tears :
    ¬ ∀ (depths : Depths) (source : String) (problems : List Diagnostic),
      Program.ofText depths source = .error problems → ∀ d ∈ problems, ∀ l ∈ d.labels,
        l.span.start ≤ l.span.stop ∧ l.span.stop ≤ source.utf8ByteSize ∧
          (⟨l.span.start⟩ : String.Pos.Raw).IsValid source ∧
          (⟨l.span.stop⟩ : String.Pos.Raw).IsValid source := by
  intro h
  have hread : readLexemes 0 0 [] [] "é".toList =
      ([], [.single .unexpectedCharacter ⟨0, 1⟩ Problem.unexpectedCharacter.about]) := by
    decide +kernel
  have hrefused : Program.ofText Depths.standard "é" =
      .error [.single .unexpectedCharacter ⟨0, 1⟩ Problem.unexpectedCharacter.about] := by
    rw [Program.ofText, tokenize, hread]
  obtain ⟨-, -, -, hstop⟩ := h _ _ _ hrefused _ List.mem_cons_self _ List.mem_cons_self
  have htorn : ¬ (⟨1⟩ : String.Pos.Raw).IsValid "é" := by decide
  exact htorn hstop

end LandPattern.Script
