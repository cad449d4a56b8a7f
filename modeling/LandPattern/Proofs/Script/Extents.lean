import LandPattern.Proofs.Script.Scanning
import LandPattern.Script.Syntax

/-!
# Extents

What is left of a script when only the places of its parts are kept: a tree of spans. Extents stand
in a row when they follow one another without touching, each of them with its parts in a row inside
it. A row stays one when some of its extents are dropped, and when those at its end are put
together.
-/

namespace LandPattern.Script

/-- A place in a script with the places of its parts. -/
inductive Extent where
  | mk (span : Span) (parts : List Extent)

/-- The whole place. -/
def Extent.span : Extent → Span
  | .mk s _ => s

/-- The places of the parts. -/
def Extent.parts : Extent → List Extent
  | .mk _ parts => parts

/-- The first place lies in the second one. -/
def Span.Inside (s outer : Span) : Prop := outer.start ≤ s.start ∧ s.stop ≤ outer.stop

/-- A place without parts. -/
def Span.extent (s : Span) : Extent := .mk s []

/-- Between two bytes, extents follow one another, and so do their parts inside each of them. None
of them is empty. -/
inductive Row : Nat → Nat → List Extent → Prop where
  | nil {lo hi : Nat} (h : lo ≤ hi) : Row lo hi []
  | cons {lo hi : Nat} {s : Span} {parts rest : List Extent} (hlo : lo ≤ s.start)
    (hs : s.start < s.stop) (hp : Row s.start s.stop parts) (hr : Row s.stop hi rest) :
    Row lo hi (.mk s parts :: rest)

namespace Row

variable {lo hi : Nat} {x y : Extent} {xs ys : List Extent}

theorem le (h : Row lo hi xs) : lo ≤ hi := by
  induction h with
  | nil h => exact h
  | cons hlo hs _ _ _ ihr => omega

/-- A row fits into every larger room. -/
theorem widen (h : Row lo hi xs) {lower upper : Nat} (hl : lower ≤ lo) (hu : hi ≤ upper) :
    Row lower upper xs := by
  induction h generalizing lower with
  | nil h => exact .nil (by omega)
  | cons hlo hs hp _ _ ihr => exact .cons (by omega) hs hp (ihr (Nat.le_refl _) hu)

theorem append_iff :
    Row lo hi (xs ++ ys) ↔ ∃ middle, Row lo middle xs ∧ Row middle hi ys := by
  constructor
  · intro h
    induction xs generalizing lo with
    | nil => exact ⟨lo, .nil (Nat.le_refl lo), h⟩
    | cons x xs ih =>
      cases h with
      | cons hlo hs hp hr =>
        obtain ⟨middle, hxs, hys⟩ := ih hr
        exact ⟨middle, .cons hlo hs hp hxs, hys⟩
  · rintro ⟨middle, hxs, hys⟩
    induction hxs with
    | nil h => exact hys.widen h (Nat.le_refl _)
    | cons hlo hs hp _ _ ihr => exact .cons hlo hs hp (ihr hys)

theorem append {middle : Nat} (h : Row lo middle xs) (hy : Row middle hi ys) :
    Row lo hi (xs ++ ys) :=
  append_iff.2 ⟨middle, h, hy⟩

theorem singleton_iff : Row lo hi [x] ↔
    lo ≤ x.span.start ∧ x.span.start < x.span.stop ∧ x.span.stop ≤ hi ∧
      Row x.span.start x.span.stop x.parts := by
  constructor
  · intro h
    cases h with
    | cons hlo hs hp hr => exact ⟨hlo, hs, hr.le, hp⟩
  · obtain ⟨s, parts⟩ := x
    exact fun ⟨hlo, hs, hhi, hp⟩ => .cons hlo hs hp (.nil hhi)

/-- What is left in a row when some extents are dropped is a row. -/
theorem sublist (h : Row lo hi ys) (hs : xs.Sublist ys) : Row lo hi xs := by
  induction hs generalizing lo with
  | slnil => exact h
  | cons y _ ih =>
    cases h with
    | cons hlo hs _ hr => exact ih (hr.widen (by omega) (Nat.le_refl _))
  | cons_cons y _ ih =>
    cases h with
    | cons hlo hs hp hr => exact .cons hlo hs hp (ih hr)

/-- Every extent of a row ends before the next one starts. -/
theorem pairwise (h : Row lo hi xs) : xs.Pairwise fun x y => x.span.stop ≤ y.span.start := by
  induction h with
  | nil => exact .nil
  | @cons lo hi s parts rest hlo hs hp hr _ ihr =>
    refine .cons (fun y hy => ?_) ihr
    obtain ⟨before, after, rfl⟩ := List.append_of_mem hy
    obtain ⟨middle, hbefore, hafter⟩ := append_iff.1 hr
    obtain ⟨t, _⟩ := y
    cases hafter with
    | cons hlo => exact Nat.le_trans hbefore.le hlo

theorem mem (h : Row lo hi xs) (hx : x ∈ xs) : Row lo hi [x] :=
  h.sublist (List.singleton_sublist.2 hx)

/-- The parts of an extent stand in a row wherever the extent stands. -/
theorem parts (h : Row lo hi [x]) : Row lo hi x.parts := by
  obtain ⟨hlo, -, hhi, hp⟩ := singleton_iff.1 h
  exact hp.widen hlo hhi

/-- An extent is a row of its own, in the room it takes. -/
theorem own (h : Row lo hi [x]) : Row x.span.start x.span.stop [x] := by
  obtain ⟨-, hs, -, hp⟩ := singleton_iff.1 h
  exact singleton_iff.2 ⟨Nat.le_refl _, hs, Nat.le_refl _, hp⟩

/-- A row of at least one extent fits between the ends of its first and of its last one. -/
theorem tighten {first last : Extent} {middle : List Extent}
    (h : Row lo hi (first :: (middle ++ [last]))) :
    Row first.span.start last.span.stop (first :: (middle ++ [last])) := by
  obtain ⟨s, parts⟩ := first
  cases h with
  | cons hlo hs hp hr =>
    obtain ⟨after, hm, hl⟩ := append_iff.1 hr
    obtain ⟨hstart, hstop, -, hparts⟩ := singleton_iff.1 hl
    exact .cons (Nat.le_refl _) hs hp
      (hm.append (singleton_iff.2 ⟨hstart, hstop, Nat.le_refl _, hparts⟩))

/-- Extents at the end of a row may be put together into one. -/
theorem gather {before : List Extent} {first last : Extent} {middle : List Extent}
    (h : Row lo hi (before ++ first :: (middle ++ [last]))) (parts : List Extent)
    (hp : Row first.span.start last.span.stop (first :: (middle ++ [last])) →
      Row first.span.start last.span.stop parts) :
    Row lo hi (before ++ [.mk (first.span.cover last.span) parts]) := by
  obtain ⟨after, hbefore, hend⟩ := append_iff.1 h
  have htight := hend.tighten
  have hparts := hp htight
  have hfirst := singleton_iff.1 (htight.mem List.mem_cons_self)
  have hlast := singleton_iff.1 (hend.mem (List.mem_cons_of_mem _
    (List.mem_append_right middle List.mem_cons_self)))
  have hlastin := singleton_iff.1 (htight.mem (List.mem_cons_of_mem _
    (List.mem_append_right middle List.mem_cons_self)))
  have hstart := (singleton_iff.1 (hend.mem List.mem_cons_self)).1
  have hcover : first.span.cover last.span = ⟨first.span.start, last.span.stop⟩ := by
    simp only [Span.cover, Span.mk.injEq]
    omega
  have hempty : first.span.start < last.span.stop := by omega
  rw [hcover]
  exact hbefore.append (.cons hstart hempty hparts (.nil hlast.2.2.1))

end Row

/-- The place of a name. -/
def Name.extent (name : Name) : Extent := name.span.extent

mutual

/-- The places of an expression. -/
def Expr.extent (e : Expr) : Extent :=
  match e with
  | .int s _ | .float s _ | .text s _ | .bool s _ | .none s | .name s _ => .mk s []
  | .list s items | .tuple s items => .mk s (itemExtents items)
  | .unary s _ operand => .mk s [operand.extent]
  | .binary s _ left right => .mk s [left.extent, right.extent]
  | .call s callee args => .mk s (callee.extent :: argumentExtents args)
  | .method s receiver name args =>
    .mk s (receiver.extent :: name.extent :: argumentExtents args)
  | .field s object name => .mk s [object.extent, name.extent]
  | .index s object position => .mk s [object.extent, position.extent]
termination_by structural e

/-- The places of items. -/
def itemExtents (items : List Expr) : List Extent :=
  match items with
  | [] => []
  | e :: rest => e.extent :: itemExtents rest
termination_by structural items

/-- The places of arguments and of their keywords. -/
def argumentExtents (args : List Argument) : List Extent :=
  match args with
  | [] => []
  | .positional e :: rest => e.extent :: argumentExtents rest
  | .keyword name e :: rest => name.extent :: e.extent :: argumentExtents rest
termination_by structural args

end

mutual

/-- The places of a statement. -/
def Stmt.extent (s : Stmt) : Extent :=
  match s with
  | .bind s name value => .mk s [name.extent, value.extent]
  | .assign s target _ value => .mk s [target.extent, value.extent]
  | .expr s value => .mk s [value.extent]
  | .giveBack s none => .mk s []
  | .giveBack s (some value) => .mk s [value.extent]
  | .choose s branches otherwise => .mk s (branchExtents branches ++ otherwiseExtents otherwise)
  | .loop s var iterable body => .mk s [var.extent, iterable.extent, body.extent]
termination_by structural s

/-- The places of statements. -/
def statementExtents (statements : List Stmt) : List Extent :=
  match statements with
  | [] => []
  | s :: rest => s.extent :: statementExtents rest
termination_by structural statements

/-- The places of a block. -/
def Block.extent (block : Block) : Extent :=
  match block with
  | .mk s statements => .mk s (statementExtents statements)
termination_by structural block

/-- The places of conditions and of what they guard. -/
def branchExtents (branches : List Branch) : List Extent :=
  match branches with
  | [] => []
  | .mk condition body :: rest => condition.extent :: body.extent :: branchExtents rest
termination_by structural branches

/-- The places of the last block of a choice. -/
def otherwiseExtents (otherwise : Option Block) : List Extent :=
  match otherwise with
  | none => []
  | some body => [body.extent]
termination_by structural otherwise

end

/-- The places of a function. -/
def Function.extent (f : Function) : Extent :=
  .mk f.span (f.name.extent :: (f.params.map Name.extent ++ [f.body.extent]))

/-- The places of a definition. -/
def Item.extents : Item → List Extent
  | .function definition => [definition.extent]
  | .constant name value => [name.extent, value.extent]

/-- The places of a script. -/
def Program.extents (p : Program) : List Extent := p.items.flatMap Item.extents

@[simp] theorem Extent.mk_nil (s : Span) : Extent.mk s [] = s.extent := rfl

@[simp] theorem Name.extent_eq (name : Name) : name.extent = name.span.extent := rfl

@[simp] theorem Span.span_extent (s : Span) : s.extent.span = s := rfl

@[simp] theorem Expr.span_extent (e : Expr) : e.extent.span = e.span := by
  cases e <;> rw [Expr.extent] <;> rfl

@[simp] theorem Stmt.span_extent (s : Stmt) : s.extent.span = s.span := by
  rcases s with _ | _ | _ | ⟨_, _ | _⟩ | _ | _ <;> rw [Stmt.extent] <;> rfl

@[simp] theorem Block.span_extent (block : Block) : block.extent.span = block.span := by
  cases block
  rfl

/-- Another span around an expression leaves its parts where they are. -/
theorem Expr.extent_withSpan (s : Span) (e : Expr) :
    (e.withSpan s).extent = .mk s e.extent.parts := by
  cases e <;> simp only [Expr.withSpan, Expr.extent, Extent.parts]

@[simp] theorem itemExtents_append (items more : List Expr) :
    itemExtents (items ++ more) = itemExtents items ++ itemExtents more := by
  induction items with
  | nil => rfl
  | cons e rest ih => rw [List.cons_append, itemExtents, itemExtents, ih, List.cons_append]

@[simp] theorem argumentExtents_append (args more : List Argument) :
    argumentExtents (args ++ more) = argumentExtents args ++ argumentExtents more := by
  induction args with
  | nil => rfl
  | cons a rest ih => cases a <;> simp [argumentExtents, ih]

@[simp] theorem statementExtents_append (statements more : List Stmt) :
    statementExtents (statements ++ more) =
      statementExtents statements ++ statementExtents more := by
  induction statements with
  | nil => rfl
  | cons s rest ih => rw [List.cons_append, statementExtents, statementExtents, ih,
      List.cons_append]

@[simp] theorem branchExtents_append (branches more : List Branch) :
    branchExtents (branches ++ more) = branchExtents branches ++ branchExtents more := by
  induction branches with
  | nil => rfl
  | cons b rest ih =>
    cases b
    simp [branchExtents, ih]

/-- The tokens of a text stand in a row. -/
theorem Lexed.row {pos : Nat} {text : List Char} {tokens : List Placed}
    (h : Lexed pos text tokens) :
    Row pos (pos + byteLength text) (tokens.map fun t => t.span.extent) := by
  induction h with
  | done pos => exact .nil (Nat.le_refl _)
  | @token pos c piece rest token tokens _ _ ih =>
    have hc : 1 ≤ c.utf8Size := c.utf8Size_pos
    have hlength : pos + byteLength (c :: piece) + byteLength rest =
        pos + byteLength (c :: (piece ++ rest)) := by
      simp only [byteLength_cons, byteLength_append]
      omega
    have hempty : pos < pos + byteLength (c :: piece) := by
      rw [byteLength_cons]
      omega
    rw [hlength] at ih
    exact .cons (Nat.le_refl _) hempty (.nil (Nat.le_of_lt hempty)) ih

end LandPattern.Script
