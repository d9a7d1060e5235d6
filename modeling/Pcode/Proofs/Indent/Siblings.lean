import Mathlib
import Pcode.Proofs.Indent.Nesting

set_option autoImplicit false

/-! # Siblings in the modes that do not indent every function

In the modes `0` and `-1` the body of a function may stand at the level of its head, but the closing
word takes a level back for every function. So the level after a block may be lower than before it.
Where a line stands is then settled by the level at which its body is entered and by whether a
function is on the stack, which in mode `-1` is what makes a function nested; a function leaves the
stack only with the last block (`Blocks.isEmpty_functions_close`).

A body never raises the level (`Body.exit_le`). It keeps the level if it has no function or if all
its functions are nested ones (`Body.exit_eq`), and else it lowers the level, as far as there is one
(`Body.exit_lt`).

Main statement: the lines that stand directly in one body are all written at the same column, in
every body of a program, if and only if no block that loses a level is followed by another line of
its body (`layText_linesUp_iff`). -/

namespace Pcode.Indent

open Pcode.Text

/-! ## Levels -/

/-- The levels by which the body of a block is indented; `covered` says that a function is on the
stack already. -/
def Kind.shift (mode : Int) (covered : Bool) : Kind → Nat
  | .function => if mode == -1 && covered then 1 else 0
  | .control => 1
  | .switch => 2

theorem Kind.shift_eq_step {mode : Int} {covered : Bool} {kind : Kind}
    (h : kind ≠ .function ∨ (mode = -1 ∧ covered = true)) :
    kind.shift mode covered = kind.step := by
  cases kind with
  | function =>
      rcases h with h | ⟨rfl, rfl⟩
      · exact absurd rfl h
      · rfl
  | control => rfl
  | switch => rfl

theorem Kind.shift_function {mode : Int} {covered : Bool} (h : ¬(mode = -1 ∧ covered = true)) :
    Kind.function.shift mode covered = 0 := by
  simp only [Kind.shift, Bool.and_eq_true, beq_iff_eq]
  exact if_neg h

theorem Kind.shift_le_step (mode : Int) (covered : Bool) (kind : Kind) :
    kind.shift mode covered ≤ kind.step := by
  by_cases h : kind ≠ .function ∨ (mode = -1 ∧ covered = true)
  · exact Nat.le_of_eq (Kind.shift_eq_step h)
  · obtain ⟨hkind, hnot⟩ := not_or.1 h
    obtain rfl := not_not.1 hkind
    rw [Kind.shift_function hnot]
    exact Nat.zero_le _

theorem Kind.step_pos (kind : Kind) : 0 < kind.step := by
  cases kind <;> decide

namespace Body

variable {inBlock inSwitch : Bool}

/-- Whether a function is opened somewhere in the body. -/
def hasFunction {inBlock inSwitch : Bool} : Body inBlock inSwitch → Bool
  | nil => false
  | plain _ _ rest => rest.hasFunction
  | continuation _ _ _ rest => rest.hasFunction
  | block _ head _ inner _ rest =>
      (head.kind == .function || inner.hasFunction) || rest.hasFunction

/-- Whether a block of the given kind is a function or has one in it. -/
def functionIn (kind : Kind) (inner : Body true inSwitch) : Bool :=
  kind == .function || inner.hasFunction

/-- Whether a statement or a block stands directly in the body. -/
def hasStatement {inBlock inSwitch : Bool} : Body inBlock inSwitch → Bool
  | nil => false
  | plain _ _ _ => true
  | continuation _ _ _ rest => rest.hasStatement
  | block _ _ _ _ _ _ => true

/-- The level after a body that is entered at the given level. -/
def exit (mode : Int) {inBlock inSwitch : Bool} (level : Nat) (covered : Bool) :
    Body inBlock inSwitch → Nat
  | nil => level
  | plain _ _ rest => rest.exit mode level covered
  | continuation _ _ _ rest => rest.exit mode level covered
  | block _ head _ inner _ rest =>
      let closed := inner.exit mode (level + head.kind.shift mode covered)
        (covered || head.kind == .function) - head.kind.step
      rest.exit mode closed (inBlock && (covered || functionIn head.kind inner))

/-- The level after a block. -/
def closed (mode : Int) (level : Nat) (covered : Bool) (kind : Kind) (inner : Body true inSwitch) :
    Nat :=
  inner.exit mode (level + kind.shift mode covered) (covered || kind == .function) - kind.step

/-- The texts of the lines with their levels. A continuation line stands one level above the body it
continues, and the closing word of a block at the level of the lines after it. -/
def written (mode : Int) {inBlock inSwitch : Bool} (level : Nat) (covered : Bool) :
    Body inBlock inSwitch → List (List Char × Nat)
  | nil => []
  | plain _ line rest => (line.text, level) :: rest.written mode level covered
  | continuation _ _ line rest => (line.text, level - 1) :: rest.written mode level covered
  | block _ head _ inner _ rest =>
      (head.phrase.text, level) ::
        (inner.written mode (level + head.kind.shift mode covered)
            (covered || head.kind == .function) ++
          ("end".toList, closed mode level covered head.kind inner) ::
            rest.written mode (closed mode level covered head.kind inner)
              (inBlock && (covered || functionIn head.kind inner)))

/-- The columns are those of the lines of the body, with all lines that stand directly in it at the
first one. The same holds for each block, with a column of its own. -/
def LinesUp {inBlock inSwitch : Bool} (column : Nat) : Body inBlock inSwitch → List Nat → Prop
  | nil, columns => columns = []
  | plain _ _ rest, columns => ∃ others, columns = column :: others ∧ rest.LinesUp column others
  | continuation _ _ _ rest, columns =>
      ∃ here others, columns = here :: others ∧ rest.LinesUp column others
  | block _ _ _ inner _ rest, columns =>
      ∃ deeper inside closing others, columns = column :: (inside ++ closing :: others) ∧
        inner.LinesUp deeper inside ∧ rest.LinesUp column others

/-- Every block that is followed by another statement of its body keeps the level: it stands at
level zero, has no function, or has nested functions only. -/
def steady (mode : Int) {inBlock inSwitch : Bool} (level : Nat) (covered : Bool) :
    Body inBlock inSwitch → Bool
  | nil => true
  | plain _ _ rest => rest.steady mode level covered
  | continuation _ _ _ rest => rest.steady mode level covered
  | block _ head _ inner _ rest =>
      inner.steady mode (level + head.kind.shift mode covered)
          (covered || head.kind == .function) &&
        (!rest.hasStatement || level == 0 || !functionIn head.kind inner ||
          (mode == -1 && covered)) &&
        rest.steady mode level (inBlock && (covered || functionIn head.kind inner))

/-! ## What a body does to the level -/

theorem exit_le (mode : Int) (body : Body inBlock inSwitch) (level : Nat) (covered : Bool) :
    body.exit mode level covered ≤ level := by
  induction body generalizing level covered with
  | nil => exact Nat.le_refl level
  | plain lead line rest ih => exact ih level covered
  | continuation inside lead line rest ih => exact ih level covered
  | block lead head allowed inner closingLead rest ihInner ihRest =>
      refine Nat.le_trans (ihRest _ _) ?_
      have hinner := ihInner (level + head.kind.shift mode covered)
        (covered || head.kind == .function)
      have hshift := head.kind.shift_le_step mode covered
      omega

theorem functionIn_eq_false {kind : Kind} {inner : Body true inSwitch}
    (h : functionIn kind inner = false) : kind ≠ .function ∧ inner.hasFunction = false := by
  obtain ⟨hkind, hinner⟩ := Bool.or_eq_false_iff.1 h
  exact ⟨by simpa using hkind, hinner⟩

/-- A block keeps the level if its inner lines do and its closing word takes back what its head has
added. -/
theorem closed_eq_of {mode : Int} {level : Nat} {covered : Bool} {kind : Kind}
    {inner : Body true inSwitch} (hkind : kind.shift mode covered = kind.step)
    (hinner : inner.exit mode (level + kind.shift mode covered) (covered || kind == .function) =
      level + kind.shift mode covered) : closed mode level covered kind inner = level := by
  rw [closed, hinner, hkind, Nat.add_sub_cancel]

/-- A block loses a level if it is a function that is not nested or its inner lines lose one. -/
theorem closed_lt_of {mode : Int} {level : Nat} {covered : Bool} {kind : Kind}
    {inner : Body true inSwitch} (hnested : ¬(mode = -1 ∧ covered = true))
    (h : kind = .function ∨
      inner.exit mode (level + kind.shift mode covered) (covered || kind == .function) ≤
        level + kind.shift mode covered - 1) :
    closed mode level covered kind inner ≤ level - 1 := by
  unfold closed
  rcases h with rfl | hinner
  · have hshift := Kind.shift_function hnested
    have hinner := inner.exit_le mode (level + Kind.function.shift mode covered)
      (covered || Kind.function == .function)
    have hstep : Kind.function.step = 1 := rfl
    omega
  · have hshift := kind.shift_le_step mode covered
    have hstep := kind.step_pos
    omega

/-- A body in a block keeps the level if it has no function, or nested ones only. -/
theorem exit_eq {mode : Int} (body : Body inBlock inSwitch) (hin : inBlock = true) (level : Nat)
    {covered : Bool} (h : body.hasFunction = false ∨ (mode = -1 ∧ covered = true)) :
    body.exit mode level covered = level := by
  induction body generalizing level covered with
  | nil => rfl
  | plain lead line rest ih => exact ih hin level h
  | continuation inside lead line rest ih => exact ih hin level h
  | @block inBlock inSwitch lead head allowed inner closingLead rest ihInner ihRest =>
      show rest.exit mode (closed mode level covered head.kind inner)
        (inBlock && (covered || functionIn head.kind inner)) = level
      rcases h with hnone | ⟨hmode, hcovered⟩
      · obtain ⟨hblock, hrest⟩ := Bool.or_eq_false_iff.1 hnone
        obtain ⟨hkind, hinner⟩ := functionIn_eq_false hblock
        rw [closed_eq_of (Kind.shift_eq_step (.inl hkind)) (ihInner rfl _ (.inl hinner))]
        exact ihRest hin level (.inl hrest)
      · -- a function on the stack stays there inside the block and, as it is in one, after it
        have hinside : (covered || head.kind == .function) = true := by rw [hcovered, Bool.true_or]
        have hafter : (inBlock && (covered || functionIn head.kind inner)) = true := by
          rw [hin, hcovered, Bool.true_or, Bool.and_true]
        rw [closed_eq_of (Kind.shift_eq_step (.inr ⟨hmode, hcovered⟩))
          (ihInner rfl _ (.inr ⟨hmode, hinside⟩))]
        exact ihRest hin level (.inr ⟨hmode, hafter⟩)

/-- A body in a block loses a level if it has a function that is not nested. -/
theorem exit_lt {mode : Int} (body : Body inBlock inSwitch) (hin : inBlock = true) (level : Nat)
    {covered : Bool} (h : body.hasFunction = true) (hnested : ¬(mode = -1 ∧ covered = true)) :
    body.exit mode level covered ≤ level - 1 := by
  induction body generalizing level covered with
  | nil => cases h
  | plain lead line rest ih => exact ih hin level h hnested
  | continuation inside lead line rest ih => exact ih hin level h hnested
  | @block inBlock inSwitch lead head allowed inner closingLead rest ihInner ihRest =>
      show rest.exit mode (closed mode level covered head.kind inner)
        (inBlock && (covered || functionIn head.kind inner)) ≤ level - 1
      by_cases hblock : functionIn head.kind inner = true
      · -- the block loses a level, and the rest does not give it back
        refine Nat.le_trans (rest.exit_le mode _ _) (closed_lt_of hnested ?_)
        by_cases hkind : head.kind = .function
        · exact .inl hkind
        · refine .inr (ihInner rfl _ ?_ ?_)
          · simpa [functionIn, hkind] using hblock
          · simpa [hkind] using hnested
      · have hnone := Bool.eq_false_iff.2 hblock
        obtain ⟨hkind, hinner⟩ := functionIn_eq_false hnone
        have hrest : rest.hasFunction = true := by
          have hall : (functionIn head.kind inner || rest.hasFunction) = true := h
          rwa [hnone, Bool.false_or] at hall
        have hafter : (inBlock && (covered || functionIn head.kind inner)) = covered := by
          rw [hin, hnone, Bool.or_false, Bool.true_and]
        rw [closed_eq_of (Kind.shift_eq_step (.inl hkind)) (inner.exit_eq rfl _ (.inl hinner)),
          hafter]
        exact ihRest hin level hrest hnested

/-- When the level after a block is the one before it. -/
theorem closed_eq_iff {mode : Int} {level : Nat} {covered : Bool} {kind : Kind}
    {inner : Body true inSwitch} :
    closed mode level covered kind inner = level ↔
      level = 0 ∨ functionIn kind inner = false ∨ (mode = -1 ∧ covered = true) := by
  constructor
  · intro hkept
    by_contra hnot
    obtain ⟨hlevel, hfunction, hnested⟩ : level ≠ 0 ∧ ¬ functionIn kind inner = false ∧
        ¬(mode = -1 ∧ covered = true) := by
      simpa only [not_or] using hnot
    have hlost : closed mode level covered kind inner ≤ level - 1 := by
      refine closed_lt_of hnested ?_
      by_cases hkind : kind = .function
      · exact .inl hkind
      · refine .inr (inner.exit_lt rfl _ ?_ ?_)
        · simpa [functionIn, hkind] using hfunction
        · simpa [hkind] using hnested
    omega
  · rintro (hlevel | hnone | hnested)
    · have hle : closed mode level covered kind inner ≤ level := by
        have hinner := inner.exit_le mode (level + kind.shift mode covered)
          (covered || kind == .function)
        have hshift := kind.shift_le_step mode covered
        unfold closed
        omega
      omega
    · obtain ⟨hkind, hinner⟩ := functionIn_eq_false hnone
      exact closed_eq_of (Kind.shift_eq_step (.inl hkind)) (inner.exit_eq rfl _ (.inl hinner))
    · refine closed_eq_of (Kind.shift_eq_step (.inr hnested)) (inner.exit_eq rfl _ (.inr ?_))
      exact ⟨hnested.1, by rw [hnested.2, Bool.true_or]⟩

/-! ## Lines of one body -/

/-- Where no statement follows, the level does not matter. -/
theorem steady_of_not_hasStatement (mode : Int) (body : Body inBlock inSwitch) (level : Nat)
    (covered : Bool) (h : body.hasStatement = false) : body.steady mode level covered = true := by
  induction body generalizing level covered with
  | nil => rfl
  | plain lead line rest ih => cases h
  | continuation inside lead line rest ih => exact ih level covered h
  | block lead head allowed inner closingLead rest ihInner ihRest => cases h

/-- A body with a block in front is steady if the inner lines are, the block keeps the level for the
statements after it, and the lines after it are steady at their own level. -/
theorem steady_block {mode : Int} {level : Nat} {covered : Bool} (lead : Nat) (head : Opener)
    (allowed : inSwitch = true → head.kind ≠ .function)
    (inner : Body true (inSwitch || head.kind == .switch)) (closingLead : Nat)
    (rest : Body inBlock inSwitch) :
    (block lead head allowed inner closingLead rest).steady mode level covered = true ↔
      inner.steady mode (level + head.kind.shift mode covered) (covered || head.kind == .function) =
          true ∧
        (rest.hasStatement = true → closed mode level covered head.kind inner = level) ∧
        rest.steady mode (closed mode level covered head.kind inner)
          (inBlock && (covered || functionIn head.kind inner)) = true := by
  simp only [steady, Bool.and_eq_true, Bool.or_eq_true, Bool.not_eq_true', beq_iff_eq, and_assoc]
  refine and_congr_right fun _ => ?_
  cases hnext : rest.hasStatement with
  | false =>
      simp [rest.steady_of_not_hasStatement mode _ _ hnext]
  | true =>
      constructor
      · rintro ⟨hkeeps, hrest⟩
        have hclosed : closed mode level covered head.kind inner = level :=
          closed_eq_iff.2 (by simpa [or_assoc] using hkeeps)
        rw [hclosed]
        exact ⟨fun _ => rfl, hrest⟩
      · rintro ⟨hkept, hrest⟩
        have hclosed := hkept rfl
        rw [hclosed] at hrest
        exact ⟨by simpa [or_assoc] using closed_eq_iff.1 hclosed, hrest⟩

theorem length_written (mode : Int) (body : Body inBlock inSwitch) (level : Nat) (covered : Bool) :
    (body.written mode level covered).length = body.lines.length := by
  induction body generalizing level covered with
  | nil => rfl
  | plain lead line rest ih => exact congrArg (· + 1) (ih level covered)
  | continuation inside lead line rest ih => exact congrArg (· + 1) (ih level covered)
  | block lead head allowed inner closingLead rest ihInner ihRest =>
      simp [written, lines, ihInner, ihRest]

theorem length_of_linesUp (body : Body inBlock inSwitch) {column : Nat} {columns : List Nat}
    (h : body.LinesUp column columns) : columns.length = body.lines.length := by
  induction body generalizing column columns with
  | nil => rw [show columns = [] from h]; rfl
  | plain lead line rest ih =>
      obtain ⟨others, rfl, hrest⟩ := h
      exact congrArg (· + 1) (ih hrest)
  | continuation inside lead line rest ih =>
      obtain ⟨here, others, rfl, hrest⟩ := h
      exact congrArg (· + 1) (ih hrest)
  | block lead head allowed inner closingLead rest ihInner ihRest =>
      obtain ⟨deeper, inside, closing, others, rfl, hinner, hrest⟩ := h
      simp [lines, ihInner hinner, ihRest hrest]

/-- **When the lines of each body stand in one column.** -/
theorem linesUp_written_iff {mode : Int} {f : Nat → Nat} (hf : Function.Injective f)
    (body : Body inBlock inSwitch) (level : Nat) (covered : Bool) (column : Nat) :
    body.LinesUp column ((body.written mode level covered).map fun p => f p.2) ↔
      (body.hasStatement = true → column = f level) ∧ body.steady mode level covered = true := by
  induction body generalizing level covered column with
  | nil => exact ⟨fun _ => ⟨fun h => absurd h Bool.false_ne_true, rfl⟩, fun _ => rfl⟩
  | plain lead line rest ih =>
      constructor
      · rintro ⟨others, hcolumns, hrest⟩
        obtain ⟨rfl, rfl⟩ := List.cons.inj hcolumns
        exact ⟨fun _ => rfl, ((ih level covered _).1 hrest).2⟩
      · rintro ⟨hcolumn, hsteady⟩
        obtain rfl := hcolumn rfl
        exact ⟨_, rfl, (ih level covered _).2 ⟨fun _ => rfl, hsteady⟩⟩
  | continuation inside lead line rest ih =>
      constructor
      · rintro ⟨here, others, hcolumns, hrest⟩
        obtain ⟨rfl, rfl⟩ := List.cons.inj hcolumns
        exact (ih level covered column).1 hrest
      · intro h
        exact ⟨_, _, rfl, (ih level covered column).2 h⟩
  | block lead head allowed inner closingLead rest ihInner ihRest =>
      rw [steady_block]
      constructor
      · rintro ⟨deeper, inside, closing, others, hcolumns, hinner, hrest⟩
        -- the columns split into those of the block and the others, as the lines do
        rw [written, List.map_cons, List.map_append, List.map_cons] at hcolumns
        obtain ⟨rfl, hblock⟩ := List.cons.inj hcolumns
        have hlength := inner.length_of_linesUp hinner
        obtain ⟨rfl, hafter⟩ := List.append_inj hblock
          (by rw [hlength, List.length_map, length_written])
        obtain ⟨-, rfl⟩ := List.cons.inj hafter
        obtain ⟨hlevel, hsteady⟩ := (ihRest _ _ _).1 hrest
        exact ⟨fun _ => rfl, ((ihInner _ _ _).1 hinner).2, fun h => (hf (hlevel h)).symm, hsteady⟩
      · rintro ⟨hcolumn, hinner, hkept, hrest⟩
        obtain rfl := hcolumn rfl
        refine ⟨_, _, f (closed mode level covered head.kind inner), _, ?_,
          (ihInner _ _ _).2 ⟨fun _ => rfl, hinner⟩,
          (ihRest _ _ _).2 ⟨fun h => by rw [hkept h], hrest⟩⟩
        rw [written, List.map_cons, List.map_append, List.map_cons]

end Body

/-! ## The stack of functions -/

/-- A closing word takes the last function off the stack only if no other block is open. -/
theorem Blocks.isEmpty_functions_close {b : Blocks} {step : Int} {steps : List Int}
    (h : b.steps = step :: steps) :
    (b.move .close).blocks.functions.isEmpty = (b.functions.isEmpty || steps.isEmpty) := by
  obtain ⟨control, functions⟩ := b
  unfold Blocks.steps at h
  cases control with
  | cons top others =>
      obtain ⟨-, rfl⟩ := List.cons.inj h
      show functions.isEmpty = (functions.isEmpty || (others ++ functions).isEmpty)
      cases functions with
      | nil => rfl
      | cons f functions => cases others <;> rfl
  | nil =>
      obtain rfl : functions = step :: steps := h
      rfl

/-- What settles where the next lines stand: the level, the open blocks, the innermost first, and
whether one of them is a function. -/
structure Spot (st : State) (level : Nat) (steps : List Int) (covered : Bool) (excess : Nat) : Prop
    extends Inside st level steps excess where
  covered_eq : covered = !st.blocks.functions.isEmpty

theorem Spot.of_rests {st st' : State} {level level' : Nat} {steps : List Int} {covered : Bool}
    {excess : Nat} (h : Spot st level steps covered excess)
    (h' : Rests st' level' st.blocks excess) : Spot st' level' steps covered excess := by
  have hinside := h'.inside
  rw [h.steps_eq] at hinside
  exact { hinside with covered_eq := by rw [h.covered_eq, h'.blocks_eq] }

/-- Outside every block no function is on the stack. -/
theorem Spot.not_covered {st : State} {level : Nat} {covered : Bool} {excess : Nat}
    (h : Spot st level [] covered excess) : covered = false := by
  obtain ⟨-, hfunctions⟩ := List.append_eq_nil_iff.1 h.steps_eq
  rw [h.covered_eq, hfunctions]
  rfl

section

variable {style : Style} {w : Nat} (hstyle : style.Proper) (hwidth : style.width = w) {st : State}
  {level : Nat} {steps : List Int} {covered : Bool} {excess : Nat}

include hstyle hwidth

theorem Plain.reaches_spot (line : Plain) (h : Spot st level steps covered excess) (lead : Nat) :
    Reaches style w 0 st [behind lead line.text] [(line.text, level)]
      (Spot · level steps covered excess) := by
  have hrests : Rests st (0 + level) st.blocks excess := by
    rw [Nat.zero_add]
    exact h.rests
  refine (line.reaches hstyle hwidth hrests lead).imp fun st' h' => ?_
  rw [Nat.zero_add] at h'
  exact h.of_rests h'

theorem Phrase.reaches_spot (line : Phrase continuationWords)
    (h : Spot st level steps covered excess) (lead : Nat) :
    Reaches style w 0 st [behind lead line.text] [(line.text, level - 1)]
      (Spot · level steps covered excess) :=
  (line.reaches hstyle hwidth h.rests (Nat.zero_add _).symm lead).imp fun _ h' => h.of_rests h'

omit hstyle hwidth in
/-- In the modes `0` and `-1` the body of a block is indented by its shift. -/
theorem Spot.indents {mode : Int} (hmode : mode = 0 ∨ mode = -1)
    (hfunctions : style.functions = .ofInt mode) (h : Spot st level steps covered excess)
    (kind : Kind) : kind.Indents style st (kind.shift mode covered) := by
  cases kind with
  | function =>
      show st.openFunction.functionOffset style = .ok _
      rw [State.functionOffset, hfunctions]
      rcases hmode with rfl | rfl
      · rfl
      · show Except.ok (if 1 < (1 :: st.blocks.functions).length then 1 else 0) = _
        rw [h.covered_eq]
        cases st.blocks.functions with
        | nil => rfl
        | cons f functions => simp [Kind.shift]
  | control => rfl
  | switch => rfl

theorem Opener.reaches_spot {mode : Int} (hmode : mode = 0 ∨ mode = -1)
    (hfunctions : style.functions = .ofInt mode) (head : Opener)
    (h : Spot st level steps covered excess)
    (hones : head.kind = .function → ∀ step ∈ steps, step = 1) (lead : Nat) :
    Reaches style w 0 st [behind lead head.phrase.text] [(head.phrase.text, level)]
      (Spot · (level + head.kind.shift mode covered) ((head.kind.step : Int) :: steps)
        (covered || head.kind == .function) excess) := by
  have hrests : Rests st (0 + level) st.blocks excess := by
    rw [Nat.zero_add]
    exact h.rests
  have hindents := h.indents hmode hfunctions head.kind
  refine (head.reaches hstyle hwidth hrests hindents lead).imp fun st' h' => ?_
  have hlevel : (((0 + level : Nat) : Int) + head.kind.shift mode covered).toNat =
      level + head.kind.shift mode covered := by omega
  have hinside := h'.inside
  rw [Blocks.steps_opened (by rwa [h.steps_eq]), h.steps_eq, hlevel] at hinside
  refine { hinside with covered_eq := ?_ }
  rw [h'.blocks_eq, h.covered_eq]
  cases head.kind with
  | function => exact Bool.or_true _
  | control => exact Bool.or_false _
  | switch => exact Bool.or_false _

theorem reaches_end_spot {step : Nat}
    (h : Spot st level ((step : Int) :: steps) covered excess) (lead : Nat) :
    Reaches style w 0 st [behind lead "end".toList] [("end".toList, level - step)]
      (Spot · (level - step) steps (covered && !steps.isEmpty) excess) := by
  obtain ⟨hsteps, hstep, hexcess⟩ := Blocks.steps_close h.steps_eq
  have hat : ((level : Int) + -(st.blocks.move .close).step).toNat = 0 + (level - step) := by
    rw [hstep]
    omega
  refine (reaches_end hstyle hwidth h.rests hat lead).imp fun st' h' => ?_
  have hinside := h'.inside
  rw [hsteps, hexcess, Nat.zero_add] at hinside
  refine { hinside with covered_eq := ?_ }
  rw [h'.blocks_eq, Blocks.isEmpty_functions_close h.steps_eq, h.covered_eq, Bool.not_or]

end

/-! ## Programs -/

/-- **Where the lines of a body are written.** The blocks that were open before are open after it,
at the level to which the body leads. -/
theorem Body.reaches_spot {style : Style} {w : Nat} (hstyle : style.Proper)
    (hwidth : style.width = w) {mode : Int} (hmode : mode = 0 ∨ mode = -1)
    (hfunctions : style.functions = .ofInt mode) {inBlock inSwitch : Bool}
    (body : Body inBlock inSwitch) {level : Nat} {steps : List Int} {covered : Bool} {excess : Nat}
    {st : State} (h : Spot st level steps covered excess) (hblock : inBlock = !steps.isEmpty)
    (hones : inSwitch = false → ∀ step ∈ steps, step = 1) :
    Reaches style w 0 st body.lines (body.written mode level covered)
      (Spot · (body.exit mode level covered) steps (inBlock && (covered || body.hasFunction))
        excess) := by
  induction body generalizing level steps covered st with
  | @nil inBlock inSwitch =>
      have hcovered : (inBlock && (covered || false)) = covered := by
        rw [Bool.or_false, hblock]
        cases steps with
        | nil => exact h.not_covered.symm
        | cons step steps => exact Bool.true_and covered
      refine Reaches.nil ?_
      show Spot st level steps (inBlock && (covered || false)) excess
      rw [hcovered]
      exact h
  | plain lead line rest ih =>
      exact (line.reaches_spot hstyle hwidth h lead).append fun st' h' => ih h' hblock hones
  | continuation inside lead line rest ih =>
      exact (line.reaches_spot hstyle hwidth h lead).append fun st' h' => ih h' hblock hones
  | @block inBlock inSwitch lead head allowed inner closingLead rest ihInner ihRest =>
      -- a block is its head, what is inside, its end and the rest
      have hfunction := head.ones_of_function hones allowed
      refine (head.reaches_spot hstyle hwidth hmode hfunctions h hfunction lead).append
        fun st₁ h₁ => ?_
      refine (ihInner h₁ rfl (head.ones_inside hones)).append fun st₂ h₂ => ?_
      refine (reaches_end_spot hstyle hwidth h₂ closingLead).append fun st₃ h₃ => ?_
      have hcovered : ((true && ((covered || head.kind == .function) || inner.hasFunction)) &&
          !steps.isEmpty) = (inBlock && (covered || Body.functionIn head.kind inner)) := by
        rw [← hblock, Bool.true_and, Bool.and_comm, Bool.or_assoc]
        rfl
      rw [hcovered] at h₃
      refine (ihRest h₃ hblock hones).imp fun st₄ h₄ => ?_
      have hafter : ∀ a b c d : Bool, (a && ((a && (b || c)) || d)) = (a && (b || (c || d))) := by
        decide
      rw [hafter] at h₄
      exact h₄

theorem Body.eq_nil_of_lines {inBlock inSwitch : Bool} (body : Body inBlock inSwitch)
    (h : body.lines = []) : body = .nil := by
  cases body with
  | nil => rfl
  | plain lead line rest => cases h
  | continuation inside lead line rest => cases h
  | block lead head allowed inner closingLead rest => cases h

theorem Body.written_flush {inBlock inSwitch : Bool} (mode : Int) (body : Body inBlock inSwitch)
    (level : Nat) (covered : Bool) :
    body.flush.written mode level covered = body.written mode level covered := by
  cases body <;> rfl

/-- The columns at which the lines of a text begin, blank lines apart. -/
def columns (text : List Char) : List Nat :=
  (inkedLines (splitLines text)).map fun line => (line.takeWhile isBlank).length

theorem map_takeWhile_of_stands {w : Nat} {placed : List (List Char × Nat)}
    {out : List (List Char)} (h : List.Forall₂ (Stands w 0) placed out) :
    out.map (fun line => (line.takeWhile isBlank).length) = placed.map fun p => p.2 * w := by
  induction h with
  | nil => rfl
  | @cons p line placed out hline _ ih =>
      obtain ⟨text, rfl, hbegins, -⟩ := hline
      rw [List.map_cons, List.map_cons, ih, Nat.zero_add]
      exact congrArg (· :: _) (takeWhile_behind (p.2 * w) hbegins)

/-- **Where siblings line up.** In the modes `0` and `-1` the lines of a well-nested program are
written as `Body.written` says. So the lines that stand directly in one and the same body begin at
the same column, in every body, if and only if every block that is followed by another statement of
its body keeps the level: it stands at level zero, has no function, or has nested functions only. -/
theorem layText_linesUp_iff (w : Nat) (hw : 0 < w) (separate : Bool) (mode : Int)
    (hmode : mode = 0 ∨ mode = -1) (st : State) (hst : Outside st) (hblocks : st.blocks = {})
    (program : Body false false) (source : List Char)
    (hsource : splitLines source = program.lines) :
    ∃ st' text, st.layText ⟨w, separate, .ofInt mode⟩ source 1 none = (st', .ok text) ∧
      List.Forall₂ (Stands w 0) (program.written mode (program.lead / w) false)
        (inkedLines (splitLines text)) ∧
      ((∃ column, program.LinesUp column (columns text)) ↔
        program.steady mode (program.lead / w) false = true) := by
  have hwidth : (w : Int) ≠ 0 := by omega
  have hstyle : Style.Proper ⟨w, separate, .ofInt mode⟩ := Style.proper_ofInt hwidth separate mode
  have hinjective : Function.Injective (· * w) := fun m n h => Nat.eq_of_mul_eq_mul_right hw h
  suffices hwritten : ∃ st' text, st.layText ⟨w, separate, .ofInt mode⟩ source 1 none =
      (st', .ok text) ∧ List.Forall₂ (Stands w 0) (program.written mode (program.lead / w) false)
        (inkedLines (splitLines text)) by
    obtain ⟨st', text, hlay, hstands⟩ := hwritten
    refine ⟨st', text, hlay, hstands, ?_⟩
    rw [columns, map_takeWhile_of_stands hstands]
    constructor
    · rintro ⟨column, hlined⟩
      exact ((program.linesUp_written_iff hinjective _ _ column).1 hlined).2
    · intro hsteady
      exact ⟨_, (program.linesUp_written_iff hinjective _ _ _).2 ⟨fun _ => rfl, hsteady⟩⟩
  cases hlines : program.lines with
  | nil =>
      obtain rfl := program.eq_nil_of_lines hlines
      refine ⟨st, [], ?_, List.Forall₂.nil⟩
      rw [State.layText, selection_all, hsource]
      rfl
  | cons first rest =>
      -- the spaces of the first line give the level, and it is laid out without them
      obtain ⟨hflush, hlead⟩ := program.lines_flush hlines
      have hrests := hst.enters hblocks hw program.lead
      have hentered : Spot { st with level := Int.fdiv program.lead w } (program.lead / w) [] false
          st.excessEnds :=
        { hrests.inside with covered_eq := by rw [hrests.blocks_eq]; rfl }
      have hreaches := program.flush.reaches_spot hstyle rfl hmode rfl hentered rfl (by simp)
      rw [hflush, program.written_flush] at hreaches
      have hdocument : Reaches ⟨w, separate, .ofInt mode⟩ w 0
          { st with level := Int.fdiv (first.takeWhile isBlank).length w }
          (skipBlanks first :: rest) (program.written mode (program.lead / w) false)
          (fun _ => True) := by
        rw [hlead]
        exact hreaches.imp fun _ _ => trivial
      obtain ⟨st', text, hlay, hstands, -⟩ := hdocument.layText hstyle (hsource.trans hlines)
      exact ⟨st', text, hlay, hstands⟩

/-- A class and the statement after it line up at the margin, where no level can be lost, and do not
further in. -/
theorem layText_linesUp_iff_class :
    (∃ st' text, ({} : State).layText ⟨(4 : Nat), true, .ofInt (-1)⟩ classSource 1 none =
        (st', .ok text) ∧
      List.Forall₂ (Stands 4 0) (classProgram.written (-1) 0 false) (inkedLines (splitLines text)) ∧
      ((∃ column, classProgram.LinesUp column (columns text)) ↔
        classProgram.steady (-1) 0 false = true)) ∧
    classProgram.steady (-1) 0 false = true ∧
    (∃ st' text, ({} : State).layText ⟨(2 : Nat), true, .ofInt 0⟩ classSource 1 none =
        (st', .ok text) ∧
      List.Forall₂ (Stands 2 0) (classProgram.written 0 1 false) (inkedLines (splitLines text)) ∧
      ((∃ column, classProgram.LinesUp column (columns text)) ↔
        classProgram.steady 0 1 false = true)) ∧
    classProgram.steady 0 1 false = false := by
  have hlines : splitLines classSource = classProgram.lines := by decide +kernel
  have hoff : Outside ({} : State) := ⟨rfl, rfl, rfl, rfl, rfl⟩
  exact ⟨layText_linesUp_iff 4 (by decide) true (-1) (.inr rfl) {} hoff rfl classProgram _ hlines,
    rfl, layText_linesUp_iff 2 (by decide) true 0 (.inl rfl) {} hoff rfl classProgram _ hlines, rfl⟩

set_option maxRecDepth 4000 in
/-- **A function that is not nested takes a level from its siblings.** -/
theorem layText_loses_level :
    (({} : State).layText ⟨4, false, .ofInt 0⟩ "if a\nfunction f\nend\ny\nend".toList 1 none).2 =
        .ok "if a\n    function f\nend\ny\nend".toList ∧
      (({} : State).layText ⟨4, false, .ofInt (-1)⟩ "if a\nfunction f\nend\ny\nend".toList 1
        none).2 = .ok "if a\n    function f\nend\ny\nend".toList := by
  cbv

end Pcode.Indent
