import LandPattern.Footprint
import LandPattern.Proofs.Run.PlacelessRun
import LandPattern.Proofs.Script.Spacing

/-!
# Layout never matters

Blanks and closed comments between the tokens of a source change no element of its footprint, no
number of operations, and no word of a fault. The spans of a fault are all that can differ.
-/

namespace LandPattern

open Script (Boundary Depths Diagnostic Placed Program Respaced significant tokenize words)

namespace Fault

/-- The faults differ in their places and in the source they refer to, and in nothing else. -/
structure Alike (fault other : Fault) : Prop where
  /-- The category is the same. -/
  kind : other.kind = fault.kind
  /-- It is told in the same words. -/
  message : other.message = fault.message
  /-- The same is recommended. -/
  help : other.help = fault.help
  /-- The same functions were active. -/
  functions : other.traceback.map Frame.function = fault.traceback.map Frame.function
  /-- What else there is, places apart, is the same. -/
  placeless : other.placeless = fault.placeless

theorem kind_placeless (fault : Fault) : fault.placeless.kind = fault.kind := by
  rcases fault with ⟨cause, marks, help, frames, site, related, source⟩
  cases cause <;> rfl

theorem message_placeless (fault : Fault) : fault.placeless.message = fault.message := by
  rcases fault with ⟨cause, marks, help, frames, site, related, source⟩
  cases cause <;> rfl

theorem functions_placeless (fault : Fault) :
    fault.placeless.traceback.map Frame.function = fault.traceback.map Frame.function := by
  simp only [traceback, placeless, List.map_reverse, List.map_map]
  rfl

theorem Alike.of_placeless {fault other : Fault} (h : other.placeless = fault.placeless) :
    fault.Alike other where
  kind := by rw [← other.kind_placeless, h, fault.kind_placeless]
  message := by rw [← other.message_placeless, h, fault.message_placeless]
  help := show other.placeless.help = fault.placeless.help by rw [h]
  functions := by rw [← other.functions_placeless, h, fault.functions_placeless]
  placeless := h

theorem placeless_ofDiagnostics (problems : List Diagnostic) :
    (ofDiagnostics problems).placeless = ofDiagnostics (problems.map Diagnostic.placeless) := by
  cases problems with
  | nil => rfl
  | cons first others =>
    simp only [ofDiagnostics, placeless, List.map_cons, List.map_map, Diagnostic.placeless]
    rfl

end Fault

namespace Footprint

/-- The footprint without the places of its fault. -/
def placeless (footprint : Footprint) : Footprint :=
  ⟨footprint.result.mapError Fault.placeless, footprint.meter⟩

/-- What is evaluated of a text, places apart, is what its script without places is. -/
theorem placeless_ofText (limits : Limits) (text : String) :
    (ofText limits text).placeless =
      match ((Program.ofText limits.depths text).map Program.bare).mapError
          (List.map Diagnostic.placeless) with
      | .error problems => ⟨.error (Fault.ofDiagnostics problems), Meter.zero⟩
      | .ok program => ⟨(program.run limits).1, (program.run limits).2.meter⟩ := by
  unfold ofText placeless
  cases Program.ofText limits.depths text with
  | error problems =>
    have hfault := Fault.placeless_ofDiagnostics problems
    exact congrArg (fun found => Footprint.mk (.error found) Meter.zero) hfault
  | ok program =>
    have hrun := program.run_bare limits
    exact congrArg (fun ended => Footprint.mk ended.1 ended.2.meter) hrun.symm

/-- Within the limit on its size, a text is evaluated as it is without its name, and the name is put
to the fault. -/
theorem placeless_evaluate {limits : Limits} {text : String} (name : String)
    (h : text.utf8ByteSize ≤ limits.sourceBytes) :
    (evaluate limits name text).placeless = (ofText limits text).placeless := by
  have hsize : ¬ limits.sourceBytes < text.utf8ByteSize := Nat.not_lt.2 h
  simp only [evaluate, if_neg hsize, placeless]
  cases hresult : (ofText limits text).result with
  | ok elements => simp only [hresult]
  | error fault => rfl

/-- A source and the same source with padding between its tokens have the same footprint, or faults
that differ in their places alone. -/
theorem evaluate_respaced {limits : Limits} {source others : String} {tokens : List Placed}
    (name : String) (h : tokenize source = .ok tokens)
    (ho : Respaced (Boundary tokens) 0 source.toList others.toList)
    (hs : source.utf8ByteSize ≤ limits.sourceBytes)
    (hl : others.utf8ByteSize ≤ limits.sourceBytes) :
    (evaluate limits name others).meter = (evaluate limits name source).meter ∧
      ((∃ elements, (evaluate limits name source).result = .ok elements ∧
          (evaluate limits name others).result = .ok elements) ∨
        ∃ fault other, (evaluate limits name source).result = .error fault ∧
          (evaluate limits name others).result = .error other ∧ fault.Alike other) := by
  obtain ⟨found, hfound, hwords⟩ := Script.tokenize_respaced h ho
  have hscripts := Program.ofText_eq_of_words limits.depths h hfound hwords.symm
  have hplaceless : (evaluate limits name others).placeless =
      (evaluate limits name source).placeless := by
    rw [placeless_evaluate name hs, placeless_evaluate name hl, placeless_ofText, placeless_ofText,
      hscripts]
  have hmeter : (evaluate limits name others).placeless.meter =
      (evaluate limits name source).placeless.meter := by rw [hplaceless]
  have hresult : (evaluate limits name others).placeless.result =
      (evaluate limits name source).placeless.result := by rw [hplaceless]
  refine ⟨hmeter, ?_⟩
  cases hfirst : (evaluate limits name source).result with
  | ok elements =>
    cases hsecond : (evaluate limits name others).result with
    | ok more =>
      simp only [placeless, hfirst, hsecond] at hresult
      cases hresult
      exact .inl ⟨_, rfl, rfl⟩
    | error other =>
      simp only [placeless, hfirst, hsecond] at hresult
      cases hresult
  | error fault =>
    cases hsecond : (evaluate limits name others).result with
    | ok more =>
      simp only [placeless, hfirst, hsecond] at hresult
      cases hresult
    | error other =>
      simp only [placeless, hfirst, hsecond] at hresult
      have hbare := Except.error.inj hresult
      exact .inr ⟨fault, other, rfl, rfl, .of_placeless hbare⟩

/-- The tokens of `let a=1/0;`. -/
def quotientTokens : List Placed :=
  [⟨.wordLet, ⟨0, 3⟩⟩, ⟨.blank, ⟨3, 4⟩⟩, ⟨.name "a", ⟨4, 5⟩⟩, ⟨.equals, ⟨5, 6⟩⟩, ⟨.int 1, ⟨6, 7⟩⟩,
    ⟨.slash, ⟨7, 8⟩⟩, ⟨.int 0, ⟨8, 9⟩⟩, ⟨.semicolon, ⟨9, 10⟩⟩]

/-- A comment in front of a slash: it is no part of the comment, and the division faults as it does
without the comment. -/
theorem evaluate_respaced_quotient :
    tokenize "let a=1/0;" = .ok quotientTokens ∧
      Respaced (Boundary quotientTokens) 0 "let a=1/0;".toList "let a=1 //\n/0;".toList ∧
      ∃ fault other, (evaluate .standard "a" "let a=1/0;").result = .error fault ∧
        (evaluate .standard "a" "let a=1 //\n/0;").result = .error other ∧ fault.Alike other := by
  have hread : Script.readLexemes 0 0 [] [] "let a=1/0;".toList = (quotientTokens, []) := by
    decide +kernel
  have htokens : tokenize "let a=1/0;" = .ok quotientTokens := by
    rw [tokenize, hread]
  have hrespaced : Respaced (Boundary quotientTokens) 0 "let a=1/0;".toList
      "let a=1 //\n/0;".toList := by
    have hboundary : Boundary quotientTokens 7 := .inr ⟨⟨.slash, ⟨7, 8⟩⟩, by decide, .inl rfl⟩
    have hend : Respaced (Boundary quotientTokens) 7 "/0;".toList "/0;".toList :=
      .char _ (.char _ (.char _ (.done _)))
    have hcomment : Script.Padding ('/' :: '/' :: ([] ++ '\n' :: [])) := .comment (by decide) .nil
    have hpad := Respaced.insert hboundary (c := ' ') (by decide) hcomment hend
    exact .char _ (.char _ (.char _ (.char _ (.char _ (.char _ (.char _ hpad))))))
  have hprogram : Program.ofText Limits.standard.depths "let a=1/0;" =
      .ok ⟨[.constant ⟨"a", ⟨4, 5⟩⟩ (.binary ⟨6, 9⟩ .div (.int ⟨6, 7⟩ 1) (.int ⟨8, 9⟩ 0))]⟩ := by
    rw [Program.ofText, tokenize, hread]
    rfl
  have hfault : ∃ fault, (evaluate .standard "a" "let a=1/0;").result = .error fault := by
    rw [evaluate, if_neg (by decide), ofText, hprogram]
    exact ⟨_, rfl⟩
  obtain ⟨fault, hfault⟩ := hfault
  have halike := @evaluate_respaced .standard _ _ _ "a" htokens hrespaced (by decide) (by decide)
  obtain ⟨elements, hfirst, -⟩ | halike := halike.2
  · rw [hfirst] at hfault
    cases hfault
  · exact ⟨htokens, hrespaced, halike⟩

end Footprint

end LandPattern
