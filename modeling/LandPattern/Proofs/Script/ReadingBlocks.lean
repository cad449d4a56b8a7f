import LandPattern.Proofs.Script.Reading

/-!
# Reading spelled scripts

From an expression to a whole script: every spelling of a statement, of a block and of a definition
is read as what it spells, so that every spelling of a script is accepted. Behind an `if` without a
last block the reader still waits for an `else`, which no statement begins with.
-/

namespace LandPattern.Script

/-- Tokens that an operand begins with. -/
def Token.startsOperand : Token → Bool
  | .int _ | .float _ | .text _ | .wordTrue | .wordFalse | .wordNone | .name _
  | .minus | .wordNot | .leftParen | .leftBracket => true
  | _ => false

theorem Spells.exists_first {level : Nat} {e : Expr} {ts : List Token} (h : Spells level e ts) :
    ∃ t us, ts = t :: us ∧ t.startsOperand = true := by
  induction h with
  | @literal _ t _ _ h =>
    refine ⟨t, [], rfl, ?_⟩
    cases t <;> simp only [Token.literal?, reduceCtorEq] at h <;> rfl
  | group => exact ⟨_, _, rfl, rfl⟩
  | list => exact ⟨_, _, rfl, rfl⟩
  | tuple => exact ⟨_, _, rfl, rfl⟩
  | @unary _ _ op =>
    refine ⟨_, _, rfl, ?_⟩
    cases op <;> rfl
  | binary _ _ _ ih =>
    obtain ⟨t, us, rfl, ht⟩ := ih
    exact ⟨t, _, rfl, ht⟩
  | call _ _ _ ih =>
    obtain ⟨t, us, rfl, ht⟩ := ih
    exact ⟨t, _, rfl, ht⟩
  | method _ _ _ ih =>
    obtain ⟨t, us, rfl, ht⟩ := ih
    exact ⟨t, _, rfl, ht⟩
  | field _ _ ih =>
    obtain ⟨t, us, rfl, ht⟩ := ih
    exact ⟨t, _, rfl, ht⟩
  | index _ _ ih =>
    obtain ⟨t, us, rfl, ht⟩ := ih
    exact ⟨t, _, rfl, ht⟩

/-- The reader stands before a statement of the block, or before an `else` that would still belong
to its last statement. -/
inductive Ready (items : List Item) : OpenBlock → Draft → Prop where
  | statement (block : OpenBlock) : Ready items block ⟨items, .statement block⟩
  | afterBranch (block : OpenBlock) (start : Span) (done : List Branch) (last : Span) :
    Ready items (block.push (.choose (start.cover last) done.reverse none))
      ⟨items, .afterBranch block start done last⟩

namespace Ready

variable {items : List Item} {block : OpenBlock} {d : Draft}

theorem step (h : Ready items block d) {t : Placed} (ht : t.token ≠ .wordElse) :
    d.step t = stepStatement items block t := by
  cases h with
  | statement => rfl
  | afterBranch block start done last =>
    unfold Draft.step
    split <;> simp_all

/-- A statement that begins with an operand is read as an expression at first. -/
theorem reaches_operand (h : Ready items block d) {ts : List Placed} {w : Token}
    {rest : List Token} (hw : words ts = w :: rest) (ho : w.startsOperand = true) {next : Draft}
    (hr : Draft.Reaches ⟨items, .operand (.bare block) []⟩ ts next) : Draft.Reaches d ts next := by
  obtain ⟨t, us, rfl, rfl, -⟩ := words_eq_cons hw
  obtain ⟨⟩ | ⟨hs, hr⟩ := hr
  refine .step ?_ hr
  rw [h.step (fun he => by rw [he] at ho; cases ho), ← hs]
  obtain ⟨token, span⟩ := t
  cases token <;> simp only [Token.startsOperand, Bool.false_eq_true] at ho <;> rfl

end Ready

/-- What the end of a block completes, with the whole block at hand. -/
def Purpose.complete (purpose : Purpose) (items : List Item) (body : Block) : Draft :=
  match purpose with
  | .function first name params =>
    ⟨.function ⟨name, params, body, first.cover body.span⟩ :: items, .item⟩
  | .branch outer first branches condition =>
    ⟨items, .afterBranch outer first (.mk condition body :: branches) body.span⟩
  | .otherwise outer first branches =>
    ⟨items, .statement
      (outer.push (.choose (first.cover body.span) branches.reverse (some body)))⟩
  | .loop outer first var iterable =>
    ⟨items, .statement (outer.push (.loop (first.cover body.span) var iterable body))⟩

theorem OpenBlock.finish_mk (purpose : Purpose) (start : Span) (done : List Stmt)
    (items : List Item) (close : Span) :
    OpenBlock.finish (.mk purpose start done) items close =
      purpose.complete items (.mk (start.cover close) done.reverse) := by
  cases purpose <;> rfl

/-- The tokens are read as the part of a body, wherever it stands. -/
def ReadablePart (part : Part) (ts : List Token) : Prop :=
  match part with
  | .statement s => ∀ (items : List Item) (block : OpenBlock) (d : Draft) (us : List Placed),
      Ready items block d → words us = ts →
        ∃ found next, Stmt.bare found = s.bare ∧ Ready items (block.push found) next ∧
          Draft.Reaches d us next
  | .statements rest => ∀ (items : List Item) (purpose : Purpose) (start : Span)
      (done : List Stmt) (d : Draft) (us : List Placed),
      Ready items (.mk purpose start done) d → words us = ts →
        ∃ (found : List Stmt) (next : Draft), found.map Stmt.bare = rest.map Stmt.bare ∧
          Ready items (.mk purpose start (found.reverse ++ done)) next ∧ Draft.Reaches d us next
  | .block b => ∃ inner, ts = .leftBrace :: inner ++ [.rightBrace] ∧
      ∀ (items : List Item) (purpose : Purpose) (start : Span) (us : List Placed) (c : Placed),
        words us = inner → c.token = .rightBrace →
          ∃ body : Block, body.bare = b.bare ∧
            Draft.Reaches ⟨items, .statement (.mk purpose start [])⟩ (us ++ [c])
              (purpose.complete items body)
  | .branches rest otherwise => ∀ (items : List Item) (block : OpenBlock) (start : Span)
      (done : List Branch) (us : List Placed), words us = ts →
        ∃ (found : List Branch) (last : Option Block) (span : Span) (next : Draft),
          found.map Branch.bare = rest.map Branch.bare ∧
          last.map Block.bare = otherwise.map Block.bare ∧
          Ready items (block.push (.choose span (done.reverse ++ found) last)) next ∧
          Draft.Reaches ⟨items, .operand (.condition block start done) []⟩ us next

theorem bareOtherwise_eq_map (otherwise : Option Block) :
    bareOtherwise otherwise = otherwise.map Block.bare := by
  cases otherwise <;> rfl

/-- An expression that fills a slot is read up to the token behind it. -/
theorem Spells.reaches_end {e : Expr} {ts : List Token} (h : Spells 0 e ts) (items : List Item)
    (slot : Slot) {us : List Placed} (hu : words us = ts) :
    ∃ whole : Expr, whole.bare = e.bare ∧ ∀ (t : Placed) (next : Draft),
      t.token.endsExpression = true → stepEnd items slot whole t = .ok next →
        Draft.Reaches ⟨items, .operand slot []⟩ (us ++ [t]) next :=
  (h.readable items slot [] us hu (Nat.le_refl 0)).outermost

namespace ReadablePart

variable {e : Expr} {ts us vs : List Token}

theorem bind {s : Span} {name : Name} (h : Spells 0 e ts) :
    ReadablePart (.statement (.bind s name e))
      (.wordLet :: .name name.text :: .equals :: ts ++ [.semicolon]) := by
  intro items block d ps hd hp
  obtain ⟨l, ps, rfl, hl, hps⟩ := words_eq_cons hp
  obtain ⟨n, qs, rfl, hn, hqs⟩ := words_eq_cons hps
  obtain ⟨k, es, c, rfl, hk, he, hc⟩ := words_eq_enclosed hqs
  have hlet : d.step l = .ok ⟨items, .bindName block l.span⟩ := by
    rw [hd.step (by rw [hl]; nofun)]
    simp only [stepStatement, hl]
  have hname : Draft.step ⟨items, .bindName block l.span⟩ n =
      .ok ⟨items, .bindEquals block l.span ⟨name.text, n.span⟩⟩ := by
    simp only [Draft.step, hn]
  have hequals : Draft.step ⟨items, .bindEquals block l.span ⟨name.text, n.span⟩⟩ k =
      .ok ⟨items, .operand (.bind block l.span ⟨name.text, n.span⟩) []⟩ := by
    simp only [Draft.step, hk]
  obtain ⟨whole, hw, hr⟩ := h.reaches_end items (.bind block l.span ⟨name.text, n.span⟩) he
  have hr := hr c _ (by rw [hc]; rfl) (by simp only [stepEnd, hc, Slot.finish?]; rfl)
  refine ⟨_, _, ?_, .statement _, .step hlet (.step hname (.step hequals hr))⟩
  simp only [Stmt.bare, Name.bare, hw]

theorem assign {s : Span} {target value : Expr} {op : AssignOp} (ht : Spells 0 target ts)
    (hv : Spells 0 value us) :
    ReadablePart (.statement (.assign s target op value)) (ts ++ op.token :: us ++ [.semicolon]) := by
  intro items block d ps hd hp
  rw [List.append_assoc] at hp
  obtain ⟨as, bs, rfl, ha, hb⟩ := words_eq_append hp
  obtain ⟨o, es, c, rfl, ho, he, hc⟩ := words_eq_enclosed hb
  obtain ⟨t, htw, hrt⟩ := ht.reaches_end items (.bare block) ha
  have hrt := hrt o ⟨items, .operand (.assign block t op) []⟩ (by rw [ho]; cases op <;> rfl) (by
    obtain ⟨token, span⟩ := o
    simp only at ho
    rw [ho]
    cases op <;> rfl)
  obtain ⟨first, rest, hfirst, hstarts⟩ := ht.exists_first
  have hwords : words (as ++ [o]) = first :: (rest ++ [op.token]) := by
    rw [words, List.map_append, ← words, ha, hfirst, List.map_singleton, ho]
    rfl
  have hrt := hd.reaches_operand hwords hstarts hrt
  obtain ⟨v, hvw, hrv⟩ := hv.reaches_end items (.assign block t op) he
  have hrv := hrv c _ (by rw [hc]; rfl) (by simp only [stepEnd, hc, Slot.finish?]; rfl)
  refine ⟨_, _, ?_, .statement _, by simpa using hrt.trans hrv⟩
  simp only [Stmt.bare, htw, hvw]

theorem expr {s : Span} (h : Spells 0 e ts) :
    ReadablePart (.statement (.expr s e)) (ts ++ [.semicolon]) := by
  intro items block d ps hd hp
  obtain ⟨es, cs, rfl, he, hcs⟩ := words_eq_append hp
  obtain ⟨c, rfl, hc⟩ := words_eq_singleton hcs
  obtain ⟨whole, hw, hr⟩ := h.reaches_end items (.bare block) he
  have hr := hr c _ (by rw [hc]; rfl) (by simp only [stepEnd, hc, Slot.finish?]; rfl)
  obtain ⟨first, rest, rfl, hstarts⟩ := h.exists_first
  refine ⟨_, _, ?_, .statement _, hd.reaches_operand hp hstarts hr⟩
  simp only [Stmt.bare, hw]

theorem giveNothing {s : Span} :
    ReadablePart (.statement (.giveBack s none)) [.wordReturn, .semicolon] := by
  intro items block d ps hd hp
  obtain ⟨r, qs, rfl, hr, hqs⟩ := words_eq_cons hp
  obtain ⟨c, rfl, hc⟩ := words_eq_singleton hqs
  have hreturn : d.step r = .ok ⟨items, .operand (.giveBack block r.span) []⟩ := by
    rw [hd.step (by rw [hr]; nofun)]
    simp only [stepStatement, hr]
  have hend : Draft.step ⟨items, .operand (.giveBack block r.span) []⟩ c =
      .ok ⟨items, .statement (block.push (.giveBack (r.span.cover c.span) none))⟩ := by
    simp only [Draft.step, stepOperand, closeEmpty, Token.literal?, hc]
  exact ⟨.giveBack (r.span.cover c.span) none, _, rfl, .statement _,
    .step hreturn (.single hend)⟩

theorem giveBack {s : Span} (h : Spells 0 e ts) :
    ReadablePart (.statement (.giveBack s (some e))) (.wordReturn :: ts ++ [.semicolon]) := by
  intro items block d ps hd hp
  obtain ⟨r, es, c, rfl, hr, he, hc⟩ := words_eq_enclosed hp
  have hreturn : d.step r = .ok ⟨items, .operand (.giveBack block r.span) []⟩ := by
    rw [hd.step (by rw [hr]; nofun)]
    simp only [stepStatement, hr]
  obtain ⟨whole, hw, hend⟩ := h.reaches_end items (.giveBack block r.span) he
  have hend := hend c _ (by rw [hc]; rfl) (by simp only [stepEnd, hc, Slot.finish?]; rfl)
  refine ⟨_, _, ?_, .statement _, .step hreturn hend⟩
  simp only [Stmt.bare, Option.map_some, hw]

theorem choose {s : Span} {branches : List Branch} {otherwise : Option Block}
    (h : ReadablePart (.branches branches otherwise) ts) :
    ReadablePart (.statement (.choose s branches otherwise)) (.wordIf :: ts) := by
  intro items block d ps hd hp
  obtain ⟨i, bs, rfl, hi, hb⟩ := words_eq_cons hp
  have hif : d.step i = .ok ⟨items, .operand (.condition block i.span []) []⟩ := by
    rw [hd.step (by rw [hi]; nofun)]
    simp only [stepStatement, hi]
  obtain ⟨found, last, span, next, hfound, hlast, hready, hr⟩ := h items block i.span [] bs hb
  refine ⟨_, next, ?_, hready, .step hif hr⟩
  simp only [Stmt.bare, bareBranches_eq_map, bareOtherwise_eq_map, List.reverse_nil,
    List.nil_append, hfound, hlast]

theorem loop {s : Span} {var : Name} {body : Block} (he : Spells 0 e ts)
    (hb : ReadablePart (.block body) us) :
    ReadablePart (.statement (.loop s var e body))
      (.wordFor :: .name var.text :: .wordIn :: ts ++ us) := by
  intro items block d ps hd hp
  obtain ⟨inner, rfl, hbody⟩ := hb
  obtain ⟨f, qs, rfl, hf, hqs⟩ := words_eq_cons hp
  obtain ⟨n, rs, rfl, hn, hrs⟩ := words_eq_cons hqs
  obtain ⟨k, xs, rfl, hk, hxs⟩ := words_eq_cons hrs
  obtain ⟨es, bs, rfl, hes, hbs⟩ := words_eq_append hxs
  obtain ⟨o, is, c, rfl, ho, hi, hc⟩ := words_eq_enclosed hbs
  have hfor : d.step f = .ok ⟨items, .loopName block f.span⟩ := by
    rw [hd.step (by rw [hf]; nofun)]
    simp only [stepStatement, hf]
  have hname : Draft.step ⟨items, .loopName block f.span⟩ n =
      .ok ⟨items, .loopIn block f.span ⟨var.text, n.span⟩⟩ := by
    simp only [Draft.step, hn]
  have hin : Draft.step ⟨items, .loopIn block f.span ⟨var.text, n.span⟩⟩ k =
      .ok ⟨items, .operand (.iterable block f.span ⟨var.text, n.span⟩) []⟩ := by
    simp only [Draft.step, hk]
  obtain ⟨whole, hw, hr⟩ := he.reaches_end items (.iterable block f.span ⟨var.text, n.span⟩) hes
  have hr := hr o _ (by rw [ho]; rfl) (by simp only [stepEnd, ho]; rfl)
  obtain ⟨found, hfound, hblock⟩ :=
    hbody items (.loop block f.span ⟨var.text, n.span⟩ whole) o.span is c hi hc
  refine ⟨.loop (f.span.cover found.span) ⟨var.text, n.span⟩ whole found, _, ?_, .statement _,
    .step hfor (.step hname (.step hin (hr.andThen hblock)))⟩
  simp only [Stmt.bare, Name.bare, hw, hfound]

theorem nil : ReadablePart (.statements []) [] := by
  intro items purpose start done d ps hd hp
  have hn : ps = [] := List.map_eq_nil_iff.mp hp
  exact ⟨[], d, rfl, hd, by rw [hn]; exact .refl d⟩

theorem cons {s : Stmt} {rest : List Stmt} (hs : ReadablePart (.statement s) ts)
    (hr : ReadablePart (.statements rest) us) :
    ReadablePart (.statements (s :: rest)) (ts ++ us) := by
  intro items purpose start done d ps hd hp
  obtain ⟨as, bs, rfl, ha, hb⟩ := words_eq_append hp
  obtain ⟨first, middle, hfirst, hm, hra⟩ := hs items _ d as hd ha
  obtain ⟨found, last, hfound, hl, hrb⟩ := hr items purpose start (first :: done) middle bs hm hb
  refine ⟨first :: found, last, ?_, ?_, hra.trans hrb⟩
  · rw [List.map_cons, List.map_cons, hfirst, hfound]
  · simpa using hl

theorem block {s : Span} {statements : List Stmt} (h : ReadablePart (.statements statements) ts) :
    ReadablePart (.block (.mk s statements)) (.leftBrace :: ts ++ [.rightBrace]) := by
  refine ⟨ts, rfl, fun items purpose start us c hu hc => ?_⟩
  obtain ⟨found, next, hfound, hready, hr⟩ := h items purpose start [] _ us (.statement _) hu
  have hclose : next.step c =
      .ok (purpose.complete items (.mk (start.cover c.span) found)) := by
    rw [hready.step (by rw [hc]; nofun)]
    simp only [stepStatement, hc, OpenBlock.finish_mk, List.append_nil, List.reverse_reverse]
  refine ⟨_, ?_, hr.trans (.single hclose)⟩
  simp only [Block.bare, bareStatements_eq_map, hfound]

/-- A condition and its block are read up to the point behind the branch. -/
theorem reaches_branch {condition : Expr} {body : Block} (hc : Spells 0 condition ts)
    (hb : ReadablePart (.block body) us) (items : List Item) (block : OpenBlock) (start : Span)
    (done : List Branch) {ps : List Placed} (hp : words ps = ts ++ us) :
    ∃ (found : Branch) (last : Span), found.bare = (Branch.mk condition body).bare ∧
      Draft.Reaches ⟨items, .operand (.condition block start done) []⟩ ps
        ⟨items, .afterBranch block start (found :: done) last⟩ := by
  obtain ⟨inner, rfl, hbody⟩ := hb
  obtain ⟨cs, bs, rfl, hcs, hbs⟩ := words_eq_append hp
  obtain ⟨o, is, c, rfl, ho, hi, hclose⟩ := words_eq_enclosed hbs
  obtain ⟨whole, hw, hr⟩ := hc.reaches_end items (.condition block start done) hcs
  have hr := hr o _ (by rw [ho]; rfl) (by simp only [stepEnd, ho]; rfl)
  obtain ⟨found, hfound, hblock⟩ :=
    hbody items (.branch block start done whole) o.span is c hi hclose
  refine ⟨.mk whole found, found.span, ?_, hr.andThen hblock⟩
  simp only [Branch.bare, hw, hfound]

theorem last {condition : Expr} {body : Block} (hc : Spells 0 condition ts)
    (hb : ReadablePart (.block body) us) :
    ReadablePart (.branches [.mk condition body] none) (ts ++ us) := by
  intro items block start done ps hp
  obtain ⟨found, span, hfound, hr⟩ := reaches_branch hc hb items block start done hp
  refine ⟨[found], none, start.cover span, _, ?_, rfl, ?_, hr⟩
  · rw [List.map_singleton, List.map_singleton, hfound]
  · have hready : Ready items _ _ := .afterBranch block start (found :: done) span
    simpa using hready

theorem otherwise {condition : Expr} {body other : Block} (hc : Spells 0 condition ts)
    (hb : ReadablePart (.block body) us) (ho : ReadablePart (.block other) vs) :
    ReadablePart (.branches [.mk condition body] (some other))
      (ts ++ us ++ .wordElse :: vs) := by
  intro items block start done ps hp
  obtain ⟨inner, rfl, hother⟩ := ho
  obtain ⟨as, es, rfl, ha, he⟩ := words_eq_append hp
  obtain ⟨k, bs, rfl, hk, hbs⟩ := words_eq_cons he
  obtain ⟨o, is, c, rfl, ho, hi, hclose⟩ := words_eq_enclosed hbs
  obtain ⟨found, span, hfound, hr⟩ := reaches_branch hc hb items block start done ha
  have helse : Draft.step ⟨items, .afterBranch block start (found :: done) span⟩ k =
      .ok ⟨items, .afterElse block start (found :: done)⟩ := by
    simp only [Draft.step, hk]
  have hbrace : Draft.step ⟨items, .afterElse block start (found :: done)⟩ o =
      .ok ⟨items, .statement (.mk (.otherwise block start (found :: done)) o.span [])⟩ := by
    simp only [Draft.step, ho]
  obtain ⟨final, hfinal, hblock⟩ :=
    hother items (.otherwise block start (found :: done)) o.span is c hi hclose
  refine ⟨[found], some final, start.cover final.span, ⟨items, .statement (block.push
      (.choose (start.cover final.span) (found :: done).reverse (some final)))⟩, ?_, ?_, ?_,
    hr.trans (.step helse (.step hbrace hblock))⟩
  · rw [List.map_singleton, List.map_singleton, hfound]
  · rw [Option.map_some, Option.map_some, hfinal]
  · have hready : Ready items _ _ := .statement
      (block.push (.choose (start.cover final.span) (found :: done).reverse (some final)))
    simpa using hready

theorem branch {condition : Expr} {body : Block} {rest : List Branch} {otherwise : Option Block}
    (hc : Spells 0 condition ts) (hb : ReadablePart (.block body) us)
    (hr : ReadablePart (.branches rest otherwise) vs) :
    ReadablePart (.branches (.mk condition body :: rest) otherwise)
      (ts ++ us ++ .wordElse :: .wordIf :: vs) := by
  intro items block start done ps hp
  obtain ⟨as, es, rfl, ha, he⟩ := words_eq_append hp
  obtain ⟨k, is, rfl, hk, his⟩ := words_eq_cons he
  obtain ⟨i, bs, rfl, hi, hbs⟩ := words_eq_cons his
  obtain ⟨found, span, hfound, hra⟩ := reaches_branch hc hb items block start done ha
  have helse : Draft.step ⟨items, .afterBranch block start (found :: done) span⟩ k =
      .ok ⟨items, .afterElse block start (found :: done)⟩ := by
    simp only [Draft.step, hk]
  have hif : Draft.step ⟨items, .afterElse block start (found :: done)⟩ i =
      .ok ⟨items, .operand (.condition block start (found :: done)) []⟩ := by
    simp only [Draft.step, hi]
  obtain ⟨more, last, whole, next, hmore, hlast, hready, hrb⟩ :=
    hr items block start (found :: done) bs hbs
  refine ⟨found :: more, last, whole, next, ?_, hlast, ?_,
    hra.trans (.step helse (.step hif hrb))⟩
  · rw [List.map_cons, List.map_cons, hfound, hmore]
  · simpa using hready

end ReadablePart

/-- Every spelling of a part of a body is read as that part. -/
theorem SpellsPart.readable {part : Part} {ts : List Token} (h : SpellsPart part ts) :
    ReadablePart part ts := by
  induction h with
  | bind h => exact .bind h
  | assign ht hv => exact .assign ht hv
  | expr h => exact .expr h
  | giveNothing => exact .giveNothing
  | giveBack h => exact .giveBack h
  | choose _ ih => exact .choose ih
  | loop he _ ih => exact .loop he ih
  | nil => exact .nil
  | cons _ _ ihs ihr => exact .cons ihs ihr
  | block _ ih => exact .block ih
  | last hc _ ih => exact .last hc ih
  | otherwise hc _ _ ihb iho => exact .otherwise hc ihb iho
  | branch hc _ _ ihb ihr => exact .branch hc ihb ihr

/-- The parameters of a function. -/
def Listing.params (items : List Item) (start : Span) (name : Name) : Listing Name where
  opened done := ⟨items, .param start name done⟩
  closed done _ := ⟨items, .block (.function start name done.reverse)⟩
  close := .rightParen
  whole _ := True

/-- The head of a function is read up to its body. -/
theorem reaches_header {trailing : Bool} {name : Name} {params : List Name} (items : List Item)
    {us : List Placed} (hu : words us = headerTokens trailing name params) :
    ∃ (start : Span) (found : Name) (others : List Name), found.bare = name.bare ∧
      others.map Name.bare = params.map Name.bare ∧
      Draft.Reaches ⟨items, .item⟩ us ⟨items, .block (.function start found others)⟩ := by
  obtain ⟨f, ns, rfl, hf, hns⟩ := words_eq_cons hu
  obtain ⟨n, ps, rfl, hn, hps⟩ := words_eq_cons hns
  obtain ⟨o, is, c, rfl, ho, his, hc⟩ := words_eq_enclosed hps
  let l := Listing.params items f.span ⟨name.text, n.span⟩
  have hfn : Draft.step ⟨items, .item⟩ f = .ok ⟨items, .functionName f.span⟩ := by
    simp only [Draft.step, hf]
  have hname : Draft.step ⟨items, .functionName f.span⟩ n =
      .ok ⟨items, .functionParams f.span ⟨name.text, n.span⟩⟩ := by
    simp only [Draft.step, hn]
  have hopen : Draft.step ⟨items, .functionParams f.span ⟨name.text, n.span⟩⟩ o =
      .ok (l.opened []) := by
    simp only [Draft.step, ho, l, Listing.params]
  have hempty : ∀ done (c : Placed), c.token = l.close →
      Draft.Reaches (l.opened done) [c] (l.closed done c) := by
    intro done c hc
    have hc : c.token = .rightParen := hc
    refine .single ?_
    simp only [l, Listing.params, Draft.step, hc]
  have hitem : ∀ p ∈ params.map (fun param => (param, [Token.name param.text])),
      l.ReadsItem Name.bare p.1 p.2 := by
    intro p hp done us hu
    obtain ⟨param, -, rfl⟩ := List.mem_map.mp hp
    obtain ⟨q, rfl, hq⟩ := words_eq_singleton hu
    have hparam : Draft.step (l.opened done) q =
        .ok ⟨items, .afterParam f.span ⟨name.text, n.span⟩ (⟨param.text, q.span⟩ :: done)⟩ := by
      simp only [l, Listing.params, Draft.step, hq]
    refine ⟨⟨param.text, q.span⟩, rfl, fun c hc => .step hparam (.single ?_),
      fun c hc _ => .step hparam (.single ?_)⟩
    · simp only [l, Listing.params, Draft.step, hc]
    · have hc : c.token = .rightParen := hc
      simp only [l, Listing.params, Draft.step, hc]
  obtain ⟨found, hfound, hr⟩ := Listing.reaches l Name.bare hempty (fun _ _ => trivial) trailing
    hitem [] (fun _ => Or.inr trivial) (by rw [his, List.map_map]; rfl) hc
  refine ⟨f.span, ⟨name.text, n.span⟩, found, rfl, ?_, .step hfn (.step hname (.step hopen ?_))⟩
  · simpa [Function.comp_def] using hfound
  · simpa [l, Listing.params] using hr

/-- Every spelling of a definition is read as that definition. -/
theorem SpellsItem.reaches {item : Item} {ts : List Token} (h : SpellsItem item ts)
    (items : List Item) {us : List Placed} (hu : words us = ts) :
    ∃ found : Item, found.bare = item.bare ∧
      Draft.Reaches ⟨items, .item⟩ us ⟨found :: items, .item⟩ := by
  cases h with
  | @function f ts trailing h =>
    obtain ⟨as, bs, rfl, ha, hb⟩ := words_eq_append hu
    obtain ⟨start, name, params, hname, hparams, hr⟩ := reaches_header items ha
    obtain ⟨inner, rfl, hbody⟩ := h.readable
    obtain ⟨o, is, c, rfl, ho, hi, hc⟩ := words_eq_enclosed hb
    obtain ⟨body, hfound, hblock⟩ :=
      hbody items (.function start name params) o.span is c hi hc
    have hopen : Draft.step ⟨items, .block (.function start name params)⟩ o =
        .ok ⟨items, .statement (.mk (.function start name params) o.span [])⟩ := by
      simp only [Draft.step, ho]
    refine ⟨.function ⟨name, params, body, start.cover body.span⟩, ?_,
      hr.trans (.step hopen hblock)⟩
    simp only [Item.bare, Function.bare, hname, hparams, hfound]
  | @constant name e ts h =>
    obtain ⟨l, ns, rfl, hl, hns⟩ := words_eq_cons hu
    obtain ⟨n, ks, rfl, hn, hks⟩ := words_eq_cons hns
    obtain ⟨k, es, c, rfl, hk, he, hc⟩ := words_eq_enclosed hks
    have hlet : Draft.step ⟨items, .item⟩ l = .ok ⟨items, .constantName⟩ := by
      simp only [Draft.step, hl]
    have hname : Draft.step ⟨items, .constantName⟩ n =
        .ok ⟨items, .constantEquals ⟨name.text, n.span⟩⟩ := by
      simp only [Draft.step, hn]
    have hequals : Draft.step ⟨items, .constantEquals ⟨name.text, n.span⟩⟩ k =
        .ok ⟨items, .operand (.constant ⟨name.text, n.span⟩) []⟩ := by
      simp only [Draft.step, hk]
    obtain ⟨whole, hw, hr⟩ := h.reaches_end items (.constant ⟨name.text, n.span⟩) he
    have hr := hr c _ (by rw [hc]; rfl) (by simp only [stepEnd, hc, Slot.finish?]; rfl)
    refine ⟨.constant ⟨name.text, n.span⟩ whole, ?_, .step hlet (.step hname (.step hequals hr))⟩
    simp only [Item.bare, Name.bare, hw]

/-- Spelled definitions are read one after the other. -/
theorem SpellsItems.reaches {rest : List Item} {ts : List Token} (h : SpellsItems rest ts)
    (items : List Item) {us : List Placed} (hu : words us = ts) :
    ∃ found : List Item, found.map Item.bare = rest.map Item.bare ∧
      Draft.Reaches ⟨items, .item⟩ us ⟨found.reverse ++ items, .item⟩ := by
  induction h generalizing items us with
  | nil =>
    have hn : us = [] := List.map_eq_nil_iff.mp hu
    exact ⟨[], rfl, by rw [hn]; exact .refl _⟩
  | cons hi _ ih =>
    obtain ⟨as, bs, rfl, ha, hb⟩ := words_eq_append hu
    obtain ⟨first, hfirst, hra⟩ := hi.reaches items ha
    obtain ⟨found, hfound, hrb⟩ := ih (first :: items) hb
    refine ⟨first :: found, by rw [List.map_cons, List.map_cons, hfirst, hfound], ?_⟩
    have hboth := hra.trans hrb
    simpa using hboth

/-- Every spelling of a script, with any blanks and comments between its tokens, is read as that
script. -/
theorem Program.ofTokens_of_spelledBy {p : Program} {tokens : List Placed}
    (h : p.SpelledBy (words (significant tokens))) :
    ∃ q, Program.ofTokens tokens = .ok q ∧ q.bare = p.bare := by
  obtain ⟨found, hfound, hr⟩ := SpellsItems.reaches h [] rfl
  have hread : Draft.start.read (significant tokens) = .ok ⟨found⟩ := by
    have happend := hr.read_append []
    simpa [Draft.start, Draft.read, Draft.finish] using happend
  refine ⟨⟨found⟩, ?_, ?_⟩
  · exact Program.ofTokens_eq_ok_iff.2 hread
  · simp only [Program.bare, hfound]

end LandPattern.Script
