import Mathlib.Data.List.Forall2
import Pcode.Proofs.Indent.Bare

set_option autoImplicit false

/-! # Indentation is nesting depth

A well-nested program is a tree: plain lines and blocks, each block a head, a body in which
continuation lines may stand, and a line `end`. The type `Body` holds only such programs, with
the texts of their lines and any number of spaces in front of each.

A run of the layout over some lines is followed by what it writes and by the state it leads to,
whatever lines come after (`Runs`), so that runs can be put one after the other. By induction on
the tree a body leads from a state to one at the same level and in the same blocks
(`Body.leads`).

Main statement: in the layout of a program every line is indented by the level of the first line
plus its depth in the tree (`layText_indents_by_depth`). -/

namespace Pcode.Indent

open Pcode.Text

/-! ## Programs -/

/-- The text of a plain line: bare, it begins with a word that is no keyword. -/
structure Plain where
  text : List Char
  bare : Bare text
  starts : ∃ c ∈ text.head?, isWord c = true
  free : ¬ Heads keywords text

/-- One of the words, alone or with one space and an expression after it. -/
structure Phrase (words : List String) where
  keyword : String
  expr : List Char
  mem : keyword ∈ words
  bare : Bare expr
  starts : ∀ c ∈ expr.head?, isBlank c = false

/-- The head of a block, with no closing word in its expression. -/
structure Opener where
  kind : Kind
  phrase : Phrase kind.words
  endless : ¬ "end".toList <:+: phrase.expr

/-- The text of a keyword and its expression. -/
def Phrase.text {words : List String} (p : Phrase words) : List Char :=
  p.keyword.toList ++ argument p.expr

/-- The lines of a program or of a block. Continuation lines stand in blocks only, and no
function stands in a switch. Each line comes with the number of spaces in front of it. -/
inductive Body : (inBlock inSwitch : Bool) → Type where
  | nil {inBlock inSwitch : Bool} : Body inBlock inSwitch
  | plain {inBlock inSwitch : Bool} (lead : Nat) (line : Plain) (rest : Body inBlock inSwitch) :
      Body inBlock inSwitch
  | continuation {inBlock inSwitch : Bool} (inside : inBlock = true) (lead : Nat)
      (line : Phrase continuationWords) (rest : Body inBlock inSwitch) : Body inBlock inSwitch
  | block {inBlock inSwitch : Bool} (lead : Nat) (head : Opener)
      (allowed : inSwitch = true → head.kind ≠ .function)
      (inner : Body true (inSwitch || head.kind == .switch)) (closingLead : Nat)
      (rest : Body inBlock inSwitch) : Body inBlock inSwitch

/-- A text behind some spaces. -/
def behind (lead : Nat) (text : List Char) : List Char := List.replicate lead ' ' ++ text

namespace Body

variable {inBlock inSwitch : Bool}

/-- The lines as they are written. -/
def lines {inBlock inSwitch : Bool} : Body inBlock inSwitch → List (List Char)
  | nil => []
  | plain lead line rest => behind lead line.text :: rest.lines
  | continuation _ lead line rest => behind lead line.text :: rest.lines
  | block lead head _ inner closingLead rest =>
      behind lead head.phrase.text :: (inner.lines ++ behind closingLead "end".toList :: rest.lines)

/-- The texts of the lines with their depths, for a body at the given depth. The body of a switch
is two levels deep, and a continuation line stands one level above the body it continues. -/
def placed {inBlock inSwitch : Bool} (depth : Nat) : Body inBlock inSwitch → List (List Char × Nat)
  | nil => []
  | plain _ line rest => (line.text, depth) :: rest.placed depth
  | continuation _ _ line rest => (line.text, depth - 1) :: rest.placed depth
  | block _ head _ inner _ rest =>
      (head.phrase.text, depth) ::
        (inner.placed (depth + head.kind.step) ++ ("end".toList, depth) :: rest.placed depth)

/-- The spaces in front of the first line. -/
def lead : Body inBlock inSwitch → Nat
  | nil => 0
  | plain lead _ _ => lead
  | continuation _ lead _ _ => lead
  | block lead _ _ _ _ _ => lead

/-- The same program with no spaces in front of its first line. -/
def flush : Body inBlock inSwitch → Body inBlock inSwitch
  | nil => nil
  | plain _ line rest => plain 0 line rest
  | continuation inside _ line rest => continuation inside 0 line rest
  | block _ head allowed inner closingLead rest => block 0 head allowed inner closingLead rest

end Body

/-! ## Lines of a program -/

theorem Plain.beginsInk (p : Plain) : BeginsInk p.text := by
  obtain ⟨c, hc, hword⟩ := p.starts
  exact ⟨c, hc, isBlank_of_isWord hword⟩

section

variable {words : List String} (p : Phrase words)

theorem Phrase.keyword_isWord (hwords : AreWords words) : ∀ c ∈ p.keyword.toList, isWord c = true :=
  hwords p.keyword p.mem

theorem Phrase.heads (hwords : AreWords words) : Heads words p.text :=
  ⟨p.keyword, p.mem, (firstWord_keyword (p.keyword_isWord hwords) p.expr).1.symm⟩

theorem Phrase.afterWord_eq (hwords : AreWords words) : afterWord p.text = argument p.expr :=
  (firstWord_keyword (p.keyword_isWord hwords) p.expr).2

theorem Phrase.bare_text (hwords : AreWords words) : Bare p.text := by
  refine Bare.word_append (p.keyword_isWord hwords) ?_
  cases hexpr : p.expr with
  | nil => exact Bare.nil
  | cons c e => exact (hexpr ▸ p.bare).cons (by decide) (by decide)

theorem Phrase.beginsInk (hwords : ∀ w ∈ words, BeginsInk w.toList) : BeginsInk p.text :=
  (hwords p.keyword p.mem).append _

end

/-- Spaces in front of a line do not change what it is. -/
theorem skipBlanks_behind (lead : Nat) {text : List Char} (h : BeginsInk text) :
    skipBlanks (behind lead text) = text := by
  rw [behind, skipBlanks_append_of_blank (all_isBlank_replicate lead), h.skipBlanks_eq]

theorem ink_behind (lead : Nat) (text : List Char) : ink (behind lead text) = ink text := by
  rw [behind, ink_append, ink_replicate_space, List.nil_append]

theorem all_isBlank_behind (lead : Nat) {text : List Char} (h : BeginsInk text) :
    (behind lead text).all isBlank = false := by
  rw [behind, List.all_append, h.all_eq_false, Bool.and_false]

theorem Bare.behind {text : List Char} (h : Bare text) (lead : Nat) : Bare (behind lead text) :=
  h.pad lead

theorem breakFree_behind {text : List Char} (h : BreakFree text) (lead : Nat) :
    BreakFree (behind lead text) :=
  h.respaced ((Respaced.refl text).pad_left lead)

/-! ## Runs -/

/-- From `st` the lines are laid out as `out`, and the layout goes on from `st'`, whatever
comes next. -/
def Runs (style : Style) (st : State) (blank : Bool) (lines : List (List Char)) (st' : State)
    (blank' : Bool) (out : List (List Char)) : Prop :=
  ∀ rest, st.layLines style blank (lines ++ rest) =
    ((st'.layLines style blank' rest).1, (st'.layLines style blank' rest).2.map (out ++ ·))

namespace Runs

variable {style : Style} {st st₁ st₂ : State} {blank blank₁ blank₂ : Bool}
  {lines lines' out out' : List (List Char)}

theorem nil (style : Style) (st : State) (blank : Bool) : Runs style st blank [] st blank [] := by
  intro rest
  show st.layLines style blank rest = _
  cases h : st.layLines style blank rest with
  | mk st' result => cases result <;> rfl

theorem trans (h : Runs style st blank lines st₁ blank₁ out)
    (h' : Runs style st₁ blank₁ lines' st₂ blank₂ out') :
    Runs style st blank (lines ++ lines') st₂ blank₂ (out ++ out') := by
  intro rest
  rw [List.append_assoc, h, h']
  cases (st₂.layLines style blank₂ rest).2 with
  | error e => rfl
  | ok last =>
      show (_, Except.ok (out ++ (out' ++ last))) = (_, Except.ok (out ++ out' ++ last))
      rw [List.append_assoc]

theorem line {line : List Char} {l : Line} (hink : line.all isBlank = false)
    (hlay : st.layLine style line = (st₁, .ok l)) (blank : Bool) :
    Runs style st blank [line] (st₁.shift l.offset) (State.gapAfter style l)
      (State.framed style (st₁.shift l.offset) blank l []) := by
  intro rest
  rw [List.singleton_append, State.layLines_cons_of_layLine hink hlay]
  cases ((st₁.shift l.offset).layLines style (State.gapAfter style l) rest).2 with
  | error e => rfl
  | ok last =>
      show (_, Except.ok _) = (_, Except.ok _)
      simp [State.framed]

theorem layLines_eq (h : Runs style st blank lines st₁ blank₁ out) :
    st.layLines style blank lines = (st₁, .ok out) := by
  have hrun := h []
  rw [List.append_nil] at hrun
  rw [hrun]
  show (st₁, Except.ok (out ++ [])) = _
  rw [List.append_nil]

end Runs

/-! ## Where the lines of a run stand -/

/-- A line of the output: the spaces of the level `base` and the depth, then the text, with its
own spacing. -/
def Stands (w base : Nat) (p : List Char × Nat) (out : List Char) : Prop :=
  ∃ text, out = List.replicate ((base + p.2) * w) ' ' ++ text ∧ BeginsInk text ∧ ink text = ink p.1

/-- From `st` the lines are written where `placed` says, and lead to a state of which `post`
holds. -/
def Reaches (style : Style) (w base : Nat) (st : State) (lines : List (List Char))
    (placed : List (List Char × Nat)) (post : State → Prop) : Prop :=
  ∀ blank, ∃ st' blank' out, Runs style st blank lines st' blank' out ∧ post st' ∧
    List.Forall₂ (Stands w base) placed (inkedLines out)

/-- From `st` the lines are written where `placed` says, and the state they lead to is at level
`next` in the blocks `steps`. -/
def Leads (style : Style) (w base : Nat) (st : State) (lines : List (List Char))
    (placed : List (List Char × Nat)) (next : Nat) (steps : List Int) (excess : Nat) : Prop :=
  ∀ blank, ∃ st' blank' out, Runs style st blank lines st' blank' out ∧
    Inside st' next steps excess ∧ List.Forall₂ (Stands w base) placed (inkedLines out)

theorem inkedLines_framed (style : Style) (st : State) (blank : Bool) {l : Line}
    (h : (trimEnd l.text).all isBlank = false) :
    inkedLines (State.framed style st blank l []) = [trimEnd l.text] := by
  have hgap : ∀ b, inkedLines (State.gap b) = [] := by decide
  rw [State.framed, inkedLines_append, hgap, inkedLines_cons, inkedLines_append, hgap,
    inkedLines_singleton h]
  rfl

section

variable {style : Style} {w base : Nat} {st : State} {lines lines' : List (List Char)}
  {placed placed' : List (List Char × Nat)} {post post' : State → Prop}

theorem Reaches.nil (h : post st) : Reaches style w base st [] [] post :=
  fun blank => ⟨st, blank, [], Runs.nil style st blank, h, List.Forall₂.nil⟩

theorem Reaches.imp (h : Reaches style w base st lines placed post)
    (himp : ∀ st', post st' → post' st') : Reaches style w base st lines placed post' := by
  intro blank
  obtain ⟨st', blank', out, hrun, hpost, hstands⟩ := h blank
  exact ⟨st', blank', out, hrun, himp st' hpost, hstands⟩

theorem Reaches.append (h : Reaches style w base st lines placed post)
    (h' : ∀ st', post st' → Reaches style w base st' lines' placed' post') :
    Reaches style w base st (lines ++ lines') (placed ++ placed') post' := by
  intro blank
  obtain ⟨st₁, blank₁, out, hrun, hpost, hstands⟩ := h blank
  obtain ⟨st₂, blank₂, out', hrun', hpost', hstands'⟩ := h' st₁ hpost blank₁
  refine ⟨st₂, blank₂, out ++ out', hrun.trans hrun', hpost', ?_⟩
  rw [inkedLines_append]
  exact List.rel_append hstands hstands'

/-- One line: what is written keeps the ink of the line. -/
theorem Writes.reaches_line (hstyle : style.Proper) {line text : List Char} {depth : Nat}
    (hfree : BreakFree line) (hblank : line.all isBlank = false) (hink : ink line = ink text)
    (h : Writes style st line w (base + depth) post) :
    Reaches style w base st [line] [(text, depth)] post := by
  intro blank
  obtain ⟨st', l, written, hlay, htext, hbegins, hpost⟩ := h
  have hkept : ink l.text = ink text := by
    obtain ⟨l', hl', hrespaced⟩ := State.layLine_ok hstyle st hfree.newline_not_mem
    rw [hlay] at hl'
    cases hl'
    rw [hrespaced.ink_eq, hink]
  have htrim : trimEnd l.text = List.replicate ((base + depth) * w) ' ' ++ trimEnd written := by
    rw [htext, trimEnd_append_of_ink hbegins.all_eq_false]
  have hwritten : ink (trimEnd written) = ink text := by
    rw [← hkept, htext, ink_trimEnd, ink_append, ink_replicate_space, List.nil_append]
  have hnonblank : (trimEnd l.text).all isBlank = false := by
    rw [htrim, List.all_append, hbegins.trimEnd.all_eq_false, Bool.and_false]
  refine ⟨_, _, _, Runs.line hblank hlay blank, hpost, ?_⟩
  rw [inkedLines_framed style _ blank hnonblank]
  exact List.Forall₂.cons ⟨_, htrim, hbegins.trimEnd, hwritten⟩ List.Forall₂.nil

theorem Writes.reaches (hstyle : style.Proper) {text : List Char} {lead depth : Nat}
    (hfree : BreakFree text) (hink : BeginsInk text)
    (h : Writes style st (behind lead text) w (base + depth) post) :
    Reaches style w base st [behind lead text] [(text, depth)] post :=
  h.reaches_line hstyle (breakFree_behind hfree lead) (all_isBlank_behind lead hink)
    (ink_behind lead text)

end

section

variable {style : Style} {w base : Nat} {st : State} {next : Nat} {steps : List Int} {excess : Nat}

theorem Leads.nil (h : Inside st next steps excess) :
    Leads style w base st [] [] next steps excess := by
  show Reaches style w base st [] [] (Inside · next steps excess)
  exact Reaches.nil h

theorem Leads.append {lines lines' : List (List Char)} {placed placed' : List (List Char × Nat)}
    {next' : Nat} {steps' : List Int} (h : Leads style w base st lines placed next steps excess)
    (h' : ∀ st', Inside st' next steps excess →
      Leads style w base st' lines' placed' next' steps' excess) :
    Leads style w base st (lines ++ lines') (placed ++ placed') next' steps' excess := by
  have hreaches : Reaches style w base st lines placed (Inside · next steps excess) := h
  exact hreaches.append h'

end

/-! ## The lines of a program, one by one -/

theorem areWords_kind (kind : Kind) : AreWords kind.words := by
  cases kind <;> decide

theorem beginsInk_of_mem_kind (kind : Kind) : ∀ w ∈ kind.words, BeginsInk w.toList := by
  cases kind <;> decide

/-- With a level for the body of each function every block indents by its step. -/
theorem Kind.indents_step {style : Style} (hfunctions : style.functions = .fixed 1) (kind : Kind)
    (st : State) : kind.Indents style st kind.step := by
  cases kind with
  | function =>
      show st.openFunction.functionOffset style = .ok 1
      rw [State.functionOffset, hfunctions]
  | control => rfl
  | switch => rfl

section

variable {style : Style} {w : Nat} (hstyle : style.Proper) (hwidth : style.width = w) {st : State}
  {base depth level : Nat} {b : Blocks} {excess : Nat}

include hstyle hwidth

theorem Plain.reaches (line : Plain) (h : Rests st (base + depth) b excess) (lead : Nat) :
    Reaches style w base st [behind lead line.text] [(line.text, depth)]
      (Rests · (base + depth) b excess) := by
  refine Writes.reaches hstyle line.bare.breakFree line.beginsInk ?_
  apply writes_plain hwidth h (line.bare.behind lead).whole (all_isBlank_behind lead line.beginsInk)
  rw [skipBlanks_behind lead line.beginsInk]
  exact line.free

theorem Phrase.reaches (line : Phrase continuationWords) (h : Rests st level b excess)
    (hat : level - 1 = base + depth) (lead : Nat) :
    Reaches style w base st [behind lead line.text] [(line.text, depth)]
      (Rests · level b excess) := by
  have hwords : AreWords continuationWords := by decide
  have hbegins := line.beginsInk (by decide)
  have hbare := line.bare_text hwords
  refine Writes.reaches hstyle hbare.breakFree hbegins ?_
  rw [← hat]
  apply writes_continuation hwidth h (hbare.behind lead).whole
  · rw [skipBlanks_behind lead hbegins]
    exact line.heads hwords
  · rw [skipBlanks_behind lead hbegins, line.afterWord_eq hwords]
    exact expressionTail?_argument line.expr

theorem Opener.reaches (head : Opener) (h : Rests st (base + depth) b excess) {offset : Int}
    (hoffset : head.kind.Indents style st offset) (lead : Nat) :
    Reaches style w base st [behind lead head.phrase.text] [(head.phrase.text, depth)]
      (Rests · ((base + depth : Nat) + offset).toNat (b.move head.kind.move).blocks excess) := by
  have hwords := areWords_kind head.kind
  have hbegins := head.phrase.beginsInk (beginsInk_of_mem_kind head.kind)
  have hbare := head.phrase.bare_text hwords
  refine Writes.reaches hstyle hbare.breakFree hbegins ?_
  apply writes_opening hwidth h (hbare.behind lead).whole hoffset
  · rw [skipBlanks_behind lead hbegins]
    exact head.phrase.heads hwords
  · rw [skipBlanks_behind lead hbegins, head.phrase.afterWord_eq hwords]
    exact shortBody?_argument (not_mem_words_of_letters head.endless)
  · rw [skipBlanks_behind lead hbegins, head.phrase.afterWord_eq hwords]
    exact expressionTail?_argument head.phrase.expr

theorem reaches_end (h : Rests st level b excess)
    (hat : (level + -(b.move .close).step).toNat = base + depth) (lead : Nat) :
    Reaches style w base st [behind lead "end".toList] [("end".toList, depth)]
      (Rests · (base + depth) (b.move .close).blocks (excess + (b.move .close).excess)) := by
  have hbare : Bare "end".toList := by
    have hword : ∀ c ∈ "end".toList, isWord c = true := List.all_eq_true.1 (by decide)
    exact List.append_nil "end".toList ▸ Bare.word_append hword Bare.nil
  have hbegins : BeginsInk "end".toList := by decide
  have hwrites := writes_end hwidth h (hbare.behind lead).whole (skipBlanks_behind lead hbegins)
  rw [hat] at hwrites
  exact hwrites.reaches hstyle hbare.breakFree hbegins

end

section

variable {style : Style} {w : Nat} (hstyle : style.Proper) (hwidth : style.width = w) {st : State}
  {base depth : Nat} {steps : List Int} {excess : Nat}

include hstyle hwidth

theorem Plain.leads (line : Plain) (h : Inside st (base + depth) steps excess) (lead : Nat) :
    Leads style w base st [behind lead line.text] [(line.text, depth)] (base + depth) steps
      excess := by
  refine (line.reaches hstyle hwidth h.rests lead).imp fun st' h' => ?_
  rw [← h.steps_eq]
  exact h'.inside

theorem Phrase.leads (line : Phrase continuationWords) (h : Inside st (base + depth) steps excess)
    (hdepth : 0 < depth) (lead : Nat) :
    Leads style w base st [behind lead line.text] [(line.text, depth - 1)] (base + depth) steps
      excess := by
  refine (line.reaches hstyle hwidth h.rests (by omega) lead).imp fun st' h' => ?_
  rw [← h.steps_eq]
  exact h'.inside

theorem Opener.leads (hfunctions : style.functions = .fixed 1) (head : Opener)
    (h : Inside st (base + depth) steps excess)
    (hones : head.kind = .function → ∀ step ∈ steps, step = 1) (lead : Nat) :
    Leads style w base st [behind lead head.phrase.text] [(head.phrase.text, depth)]
      (base + (depth + head.kind.step)) ((head.kind.step : Int) :: steps) excess := by
  have hoffset := Kind.indents_step hfunctions head.kind st
  refine (head.reaches hstyle hwidth h.rests hoffset lead).imp fun st' h' => ?_
  have hinside := h'.inside
  have hnext : (((base + depth : Nat) : Int) + head.kind.step).toNat =
      base + (depth + head.kind.step) := by omega
  rw [Blocks.steps_opened (by rwa [h.steps_eq]), h.steps_eq, hnext] at hinside
  exact hinside

/-- The end of a block stands where its head does, and so does the next line. -/
theorem leads_end {step : Nat}
    (h : Inside st (base + (depth + step)) ((step : Int) :: steps) excess) (lead : Nat) :
    Leads style w base st [behind lead "end".toList] [("end".toList, depth)] (base + depth) steps
      excess := by
  obtain ⟨hsteps, hstep, hexcess⟩ := Blocks.steps_close h.steps_eq
  refine (reaches_end hstyle hwidth h.rests (by rw [hstep]; omega) lead).imp fun st' h' => ?_
  have hinside := h'.inside
  rw [hsteps, hexcess] at hinside
  exact hinside

end

/-! ## Bodies -/

section

variable (head : Opener) {inSwitch : Bool} {steps : List Int}
  (hones : inSwitch = false → ∀ step ∈ steps, step = 1)

include hones

/-- Where a function may stand, every open block indents by one level. -/
theorem Opener.ones_of_function (allowed : inSwitch = true → head.kind ≠ .function) :
    head.kind = .function → ∀ step ∈ steps, step = 1 := by
  intro hkind
  apply hones
  cases hswitch : inSwitch with
  | false => rfl
  | true => exact absurd hkind (allowed hswitch)

/-- Outside every switch the new block indents by one level too. -/
theorem Opener.ones_inside : (inSwitch || head.kind == .switch) = false →
    ∀ step ∈ (head.kind.step : Int) :: steps, step = 1 := by
  intro hswitch step hstep
  obtain ⟨houter, hkind⟩ : inSwitch = false ∧ (head.kind == .switch) = false := by
    simpa using hswitch
  rcases List.mem_cons.1 hstep with rfl | hstep
  · revert hkind
    cases head.kind <;> decide
  · exact hones houter step hstep

end

/-- **A body leads back to where it began**: the level and the open blocks after it are those
before it, and its lines stand at their depths. The open blocks indent by one level each unless
the body stands in a switch. -/
theorem Body.leads {style : Style} {w : Nat} (hstyle : style.Proper) (hwidth : style.width = w)
    (hfunctions : style.functions = .fixed 1) {inBlock inSwitch : Bool}
    (body : Body inBlock inSwitch) {base depth : Nat} {steps : List Int} {excess : Nat} {st : State}
    (h : Inside st (base + depth) steps excess) (hdepth : inBlock = true → 0 < depth)
    (hones : inSwitch = false → ∀ step ∈ steps, step = 1) :
    Leads style w base st body.lines (body.placed depth) (base + depth) steps excess := by
  -- what `Inside` says of the state is the invariant: every part hands it on to the next one
  induction body generalizing depth steps st with
  | nil => exact Leads.nil h
  | plain lead line rest ih =>
      exact (line.leads hstyle hwidth h lead).append fun st' h' => ih h' hdepth hones
  | continuation inside lead line rest ih =>
      exact (line.leads hstyle hwidth h (hdepth inside) lead).append fun st' h' =>
        ih h' hdepth hones
  | @block inBlock inSwitch lead head allowed inner closingLead rest ihInner ihRest =>
      have hfunction := head.ones_of_function hones allowed
      refine (head.leads hstyle hwidth hfunctions h hfunction lead).append fun st₁ h₁ => ?_
      have hpos : 0 < depth + head.kind.step := by
        cases head.kind <;> simp [Kind.step]
      have hinner := head.ones_inside hones
      refine (ihInner h₁ (fun _ => hpos) hinner).append fun st₂ h₂ => ?_
      exact (leads_end hstyle hwidth h₂ closingLead).append fun st₃ h₃ => ihRest h₃ hdepth hones

/-! ## Programs as texts -/

theorem takeWhile_behind (lead : Nat) {text : List Char} (h : BeginsInk text) :
    ((behind lead text).takeWhile isBlank).length = lead := by
  have hspaces : ∀ c ∈ List.replicate lead ' ', isBlank c = true :=
    List.all_eq_true.1 (all_isBlank_replicate lead)
  obtain ⟨c, r, rfl, hc⟩ := h.exists_cons
  rw [behind, List.takeWhile_append_of_pos hspaces, List.takeWhile_cons, if_neg (by simp [hc]),
    List.append_nil, List.length_replicate]

section

variable {inBlock inSwitch : Bool}

theorem Body.placed_flush (depth : Nat) (body : Body inBlock inSwitch) :
    body.flush.placed depth = body.placed depth := by
  cases body <;> rfl

/-- The first line is laid out without its spaces, which give the level. -/
theorem Body.lines_flush (body : Body inBlock inSwitch) {first : List Char}
    {rest : List (List Char)} (h : body.lines = first :: rest) :
    body.flush.lines = skipBlanks first :: rest ∧ (first.takeWhile isBlank).length = body.lead := by
  cases body with
  | nil => cases h
  | plain lead line rest =>
      cases h
      rw [skipBlanks_behind lead line.beginsInk]
      exact ⟨rfl, takeWhile_behind lead line.beginsInk⟩
  | continuation inside lead line rest =>
      cases h
      have hbegins := line.beginsInk (by decide)
      rw [skipBlanks_behind lead hbegins]
      exact ⟨rfl, takeWhile_behind lead hbegins⟩
  | block lead head allowed inner closingLead rest =>
      cases h
      have hbegins := head.phrase.beginsInk (beginsInk_of_mem_kind head.kind)
      rw [skipBlanks_behind lead hbegins]
      exact ⟨rfl, takeWhile_behind lead hbegins⟩

end

theorem selection_all {α : Type} (xs : List α) : selection 1 none xs = xs := by
  simp [selection, slice]

/-- A document whose lines, the first without its blanks, lead somewhere from its level. -/
theorem Reaches.layDocument {style : Style} (hstyle : style.Proper) {st : State} {first : List Char}
    {rest : List (List Char)} (hfree : ∀ l ∈ first :: rest, BreakFree l) {w base : Nat}
    {placed : List (List Char × Nat)} {post : State → Prop}
    (h : Reaches style w base
      { st with level := Int.fdiv (first.takeWhile isBlank).length style.width }
      (skipBlanks first :: rest) placed post) :
    ∃ st' out, st.layDocument style first rest = (st', .ok out) ∧ (∀ l ∈ out, BreakFree l) ∧
      List.Forall₂ (Stands w base) placed (inkedLines out) ∧ post st' := by
  obtain ⟨st', blank', out, hrun, hpost, hstands⟩ := h true
  have hlay := State.layDocument_of_layLines hstyle (hfree first (by simp)) hrun.layLines_eq
  refine ⟨st', _, hlay, ?_, ?_, hpost⟩
  · obtain ⟨out', hout', -, hbreaks⟩ := State.layDocument_ok hstyle st hfree
    rw [hlay] at hout'
    cases hout'
    exact hbreaks
  · rw [inkedLines_dropLastEmpty]
    exact hstands

/-- A text whose lines, the first without its blanks, lead somewhere from its level. -/
theorem Reaches.layText {style : Style} (hstyle : style.Proper) {st : State} {source : List Char}
    {first : List Char} {rest : List (List Char)} (hsource : splitLines source = first :: rest)
    {w base : Nat} {placed : List (List Char × Nat)} {post : State → Prop}
    (h : Reaches style w base
      { st with level := Int.fdiv (first.takeWhile isBlank).length style.width }
      (skipBlanks first :: rest) placed post) :
    ∃ st' text, st.layText style source 1 none = (st', .ok text) ∧
      List.Forall₂ (Stands w base) placed (inkedLines (splitLines text)) ∧ post st' := by
  have hfree : ∀ l ∈ first :: rest, BreakFree l := by
    intro l hl
    rw [← hsource] at hl
    exact breakFree_of_mem_splitLines hl
  obtain ⟨st', out, hlay, hbreaks, hstands, hpost⟩ := h.layDocument hstyle hfree
  refine ⟨st', ['\n'].intercalate out, ?_, ?_, hpost⟩
  · rw [State.layText, selection_all, hsource]
    simp only [hlay]
    rfl
  · rw [inkedLines_splitLines_intercalate hbreaks]
    exact hstands

/-- A document begins at the level that the blanks of its first line give. -/
theorem Outside.enters {st : State} (h : Outside st) {b : Blocks} (hblocks : st.blocks = b)
    {w : Nat} (hw : 0 < w) (lead : Nat) :
    Rests { st with level := Int.fdiv lead w } (lead / w) b st.excessEnds := by
  refine { h with level_eq := ?_, blocks_eq := hblocks, excess_eq := rfl }
  show Int.fdiv lead w = ((lead / w : Nat) : Int)
  rw [Int.fdiv_eq_ediv_of_nonneg _ (by omega)]
  rfl

theorem Inside.blocks_eq_empty {st : State} {level excess : Nat} (h : Inside st level [] excess) :
    st.blocks = {} := by
  obtain ⟨hcontrol, hfunctions⟩ := List.append_eq_nil_iff.1 h.steps_eq
  calc st.blocks
      = ⟨st.blocks.control, st.blocks.functions⟩ := rfl
    _ = {} := by rw [hcontrol, hfunctions]

/-- **Indentation is nesting depth.** In the layout of a well-nested program, with a level for
the body of each function and from any state outside comments, brackets and blocks, the lines
that are not blank are the program's, in order: each behind the spaces of its depth and of the
level of the first line. All blocks are closed again, and no closing word is in excess. -/
theorem layText_indents_by_depth (w : Nat) (hw : 0 < w) (separate : Bool) (st : State)
    (hst : Outside st) (hblocks : st.blocks = {}) (program : Body false false)
    (source : List Char) (hsource : splitLines source = program.lines) :
    ∃ st' text, st.layText ⟨w, separate, .ofInt 1⟩ source 1 none = (st', .ok text) ∧
      List.Forall₂ (Stands w (program.lead / w)) (program.placed 0) (inkedLines (splitLines text)) ∧
      st'.blocks = {} ∧ st'.excessEnds = st.excessEnds := by
  have hwidth : (w : Int) ≠ 0 := by omega
  have hstyle : Style.Proper ⟨w, separate, .ofInt 1⟩ := Style.proper_ofInt hwidth separate 1
  cases hlines : program.lines with
  | nil =>
      refine ⟨st, [], ?_, ?_, hblocks, rfl⟩
      · rw [State.layText, selection_all, hsource, hlines]
      cases program with
      | nil => exact List.Forall₂.nil
      | plain lead line rest => cases hlines
      | continuation inside lead line rest => cases hlines
      | block lead head allowed inner closingLead rest => cases hlines
  | cons first rest =>
      -- the spaces of the first line give the level, and it is laid out without them
      obtain ⟨hflush, hlead⟩ := program.lines_flush hlines
      have hentered : Inside { st with level := Int.fdiv (first.takeWhile isBlank).length w }
          (program.lead / w + 0) [] st.excessEnds := by
        refine { hst with level_eq := ?_, steps_eq := by rw [hblocks]; rfl, excess_eq := rfl }
        show Int.fdiv (first.takeWhile isBlank).length w = ((program.lead / w + 0 : Nat) : Int)
        rw [hlead, Int.fdiv_eq_ediv_of_nonneg _ (by omega)]
        rfl
      have hleads := program.flush.leads hstyle rfl rfl hentered (by decide) (by simp)
      rw [hflush, program.placed_flush] at hleads
      have hreaches : Reaches ⟨w, separate, .ofInt 1⟩ w (program.lead / w)
          { st with level := Int.fdiv (first.takeWhile isBlank).length w }
            (skipBlanks first :: rest)
          (program.placed 0) (Inside · (program.lead / w + 0) [] st.excessEnds) := hleads
      obtain ⟨st', text, hlay, hstands, hinside⟩ :=
        hreaches.layText hstyle (hsource.trans hlines)
      exact ⟨st', text, hlay, hstands, hinside.blocks_eq_empty, hinside.excess_eq⟩

/-- A function in a class, with a switch in it. -/
def classProgram : Body false false :=
  .block 3 ⟨.function, ⟨"classdef", ['A'], by decide, by decide, by rintro _ ⟨⟩; decide⟩,
      by decide⟩ nofun
    (.block 0 ⟨.control, ⟨"methods", [], by decide, Bare.nil, nofun⟩, by decide⟩ nofun
      (.block 1 ⟨.function, ⟨"function", ['f'], by decide, by decide, by rintro _ ⟨⟩; decide⟩,
          by decide⟩ nofun
        (.block 6 ⟨.switch, ⟨"switch", ['x'], by decide, by decide, by rintro _ ⟨⟩; decide⟩,
            by decide⟩ nofun
          (.continuation rfl 0 ⟨"otherwise", [], by decide, Bare.nil, nofun⟩
            (.plain 2 ⟨"y=end".toList, by decide +kernel, ⟨'y', rfl, by decide⟩, by decide +kernel⟩
              .nil))
          0 .nil)
        0 .nil)
      0 .nil)
    4 (.plain 0 ⟨"ended".toList, by decide +kernel, ⟨'e', rfl, by decide⟩, by decide +kernel⟩ .nil)

/-- The lines of the program, joined. -/
def classSource : List Char :=
  ("   classdef A\nmethods\n function f\n      switch x\notherwise\n" ++
    "  y=end\nend\nend\nend\n    end\nended").toList

/-- The `end` of the function takes the step of `methods`, and that of `methods` the step of a
function: the depths come out right all the same. -/
theorem layText_indents_by_depth_class :
    splitLines classSource = classProgram.lines ∧
      (classProgram.placed 0).map Prod.snd = [0, 1, 2, 3, 4, 5, 3, 2, 1, 0, 0] ∧
      ∃ st' text, ({} : State).layText ⟨(2 : Nat), true, .ofInt 1⟩ classSource 1 none =
          (st', .ok text) ∧
        List.Forall₂ (Stands 2 1) (classProgram.placed 0) (inkedLines (splitLines text)) ∧
        st'.blocks = {} ∧ st'.excessEnds = 0 := by
  have hlines : splitLines classSource = classProgram.lines := by decide +kernel
  exact ⟨hlines, by decide, layText_indents_by_depth 2 (by decide) true {}
    ⟨rfl, rfl, rfl, rfl, rfl⟩ rfl classProgram classSource hlines⟩

end Pcode.Indent
