import Mathlib
import Pcode.Command.Format
import Pcode.Proofs.Indent.Mode

set_option autoImplicit false

/-! # The name of a mode in place of its number

Three modes of indentation have a name. The command takes the name for a text, as it takes any other
word, and a text is no number: it is carried along as it is until the body of a function is to be
indented. The mode has no part in what the other settings ask for (`request_insert`), so what
becomes of the name is decided by the text alone.

Main statement: the name of a mode does what its number does for every text without a line that
opens a function, and fails for every other text that has a layout
(`run_mode_name_eq_iff`). -/

namespace Pcode.Command.Format

open Pcode.Text
open Pcode.Indent (Setting settingIn settingOf settingsOf State Style FunctionIndent Move)

/-! ## Settings -/

/-- A mode of indentation that has a name. -/
inductive Mode where
  | allFunctions
  | onlyNestedFunctions
  | classic
deriving Repr, DecidableEq

def Mode.name : Mode → String
  | allFunctions => "all_functions"
  | onlyNestedFunctions => "only_nested_functions"
  | classic => "classic"

def Mode.number : Mode → Int
  | allFunctions => 1
  | onlyNestedFunctions => -1
  | classic => 0

/-- The arguments that set the mode, by its name and by its number. -/
def Mode.byName (m : Mode) : String := "--indentMode=" ++ m.name

def Mode.byNumber (m : Mode) : String := "--indentMode=" ++ toString m.number

theorem settingOf_byName (m : Mode) :
    settingOf m.byName = .ok ("indentMode", .text m.name) := by
  cases m with
  | allFunctions => decide +kernel
  | onlyNestedFunctions => decide +kernel
  | classic => decide +kernel

theorem settingOf_byNumber (m : Mode) :
    settingOf m.byNumber = .ok ("indentMode", .number m.number) := by
  cases m with
  | allFunctions => decide +kernel
  | onlyNestedFunctions => decide +kernel
  | classic => decide +kernel

theorem settingsOf_insert {before after : List String} {sb sa : List (String × Setting)}
    {arg : String} {s : String × Setting} (hbefore : settingsOf before = .ok sb)
    (harg : settingOf arg = .ok s) (hafter : settingsOf after = .ok sa) :
    settingsOf (before ++ arg :: after) = .ok (sb ++ s :: sa) := by
  induction before generalizing sb with
  | nil =>
      cases hbefore
      simp only [List.nil_append, settingsOf, harg, hafter]
      rfl
  | cons b before ih =>
      rw [settingsOf] at hbefore
      cases hb : settingOf b with
      | error e => simp [hb] at hbefore
      | ok t =>
          simp only [hb] at hbefore
          cases hrest : settingsOf before with
          | error e => simp [hrest, Except.map] at hbefore
          | ok ts =>
              rw [hrest] at hbefore
              cases hbefore
              simp only [List.cons_append, settingsOf, hb, ih hrest]
              rfl

section Insert

variable {sb sa : List (String × Setting)}

theorem settingIn_insert_of_ne {key name : String} (h : name ≠ key) (v default : Setting) :
    settingIn (sb ++ (key, v) :: sa) name default = settingIn (sb ++ sa) name default := by
  have hkey : (name == key) = false := by simpa using h
  simp [settingIn, List.lookup_append, List.lookup_cons, hkey]

/-- The other settings leave the mode alone. -/
def Others (settings : List (String × Setting)) : Prop := ∀ s ∈ settings, s.1 ≠ "indentMode"

theorem Others.lookup_eq {settings : List (String × Setting)} (h : Others settings) :
    settings.reverse.lookup "indentMode" = none := by
  rw [List.lookup_eq_none_iff]
  intro s hs
  simpa using Ne.symm (h s (List.mem_reverse.1 hs))

theorem Others.settingIn_insert (h : Others (sb ++ sa)) (v default : Setting) :
    settingIn (sb ++ ("indentMode", v) :: sa) "indentMode" default = v := by
  have hafter : Others sa := fun s hs => h s (List.mem_append_right sb hs)
  simp [settingIn, List.lookup_append, hafter.lookup_eq]

/-- The indentation of functions that a setting asks for. -/
def functionsOf (v : Setting) : FunctionIndent :=
  match v.toInt with
  | .ok n => .ofInt n
  | .error kind => .invalid kind

/-- **The mode enters into the indentation of functions only.** -/
theorem request_insert (h : Others (sb ++ sa)) (v : Setting) :
    request (sb ++ ("indentMode", v) :: sa) =
      (request (sb ++ sa)).map fun r => (r.1.indenting (functionsOf v), r.2) := by
  have hbounds : bounds (sb ++ ("indentMode", v) :: sa) = bounds (sb ++ sa) := by
    rw [bounds, bounds, settingIn_insert_of_ne (by decide), settingIn_insert_of_ne (by decide)]
  have hstyle : styleOf (sb ++ ("indentMode", v) :: sa) =
      (styleOf (sb ++ sa)).map (Style.indenting · (functionsOf v)) := by
    rw [styleOf, styleOf, settingIn_insert_of_ne (by decide), settingIn_insert_of_ne (by decide),
      h.settingIn_insert]
    cases (settingIn (sb ++ sa) "indentWidth" (.number 4)).toInt with
    | error kind => rfl
    | ok width => rfl
  rw [request, request, hbounds, hstyle]
  cases bounds (sb ++ sa) with
  | error e => rfl
  | ok b =>
      cases styleOf (sb ++ sa) with
      | error e => rfl
      | ok style => rfl

end Insert

/-- Without a mode, functions are indented by one level. -/
theorem Others.functions_eq {settings : List (String × Setting)} (h : Others settings)
    {style : Style} {b : Int × Option Int} (hrequest : request settings = .ok (style, b)) :
    style.functions = .fixed 1 := by
  have hmode : settingIn settings "indentMode" (.number 1) = .number 1 := by
    rw [settingIn, h.lookup_eq]
    rfl
  unfold request at hrequest
  split at hrequest
  · cases hrequest
  · split at hrequest
    · cases hrequest
    · next hstyle =>
        cases hrequest
        unfold styleOf at hstyle
        split at hstyle
        · cases hstyle
        · cases hstyle
          simp only [hmode]
          rfl

/-! ## Runs -/

/-- With the given settings the text has a layout, and one of its lines opens a function. -/
def MeetsFunction (fs : Files) (input : List Char) (name : String)
    (settings : List (String × Setting)) : Prop :=
  ∃ style start stop text, request settings = .ok (style, start, stop) ∧ style.width ≠ 0 ∧
    readText fs input name = .ok text ∧
    Move.function ∈ ({} : State).fileMoves style (fileLines (universal text)) start stop

section Runs

variable {fs : Files} {blocks : Indent.Blocks} {input : List Char} {name : String}
  {before after : List String} {sb sa : List (String × Setting)}
  (hbefore : settingsOf before = .ok sb) (hafter : settingsOf after = .ok sa)
  (hothers : Others (sb ++ sa))

include hbefore hafter hothers

/-- A run with the mode among other settings. -/
theorem run_insert {arg : String} {v : Setting} (harg : settingOf arg = .ok ("indentMode", v)) :
    run fs blocks (name :: (before ++ arg :: after)) input =
      match request (sb ++ sa) with
      | .ok (style, start, stop) =>
          (print fs input (style.indenting (functionsOf v)) { blocks := blocks } name start stop).2
      | .error e =>
          match readText fs input name with
          | .error e => { failure := some e }
          | .ok _ => { failure := some e } := by
  simp only [run, settingsOf_insert hbefore harg hafter, request_insert hothers]
  cases request (sb ++ sa) with
  | error e => rfl
  | ok r => rfl

/-- **Without a function the mode does not matter.** -/
theorem run_insert_eq (h : ¬MeetsFunction fs input name (sb ++ sa)) {arg arg' : String}
    {v v' : Setting} (harg : settingOf arg = .ok ("indentMode", v))
    (harg' : settingOf arg' = .ok ("indentMode", v')) :
    run fs blocks (name :: (before ++ arg :: after)) input =
      run fs blocks (name :: (before ++ arg' :: after)) input := by
  rw [run_insert hbefore hafter hothers harg, run_insert hbefore hafter hothers harg']
  cases hrequest : request (sb ++ sa) with
  | error e => rfl
  | ok r =>
      obtain ⟨style, start, stop⟩ := r
      cases hread : readText fs input name with
      | error e => simp only [print, hread]
      | ok text =>
          have hlaid : ∀ f, State.layFile (style.indenting f) { blocks := blocks }
              (fileLines (universal text)) start stop =
              State.layFile style { blocks := blocks } (fileLines (universal text)) start stop := by
            intro f
            by_cases hwidth : style.width = 0
            · rw [State.layFile_of_zero style hwidth, State.layFile_of_zero (style.indenting f)
                hwidth]
            · refine State.layFile_indenting_of_not_mem (hothers.functions_eq hrequest) hwidth ?_ f
              rw [State.fileMoves_blocks]
              intro hmem
              exact h ⟨style, start, stop, text, hrequest, hwidth, hread, hmem⟩
          simp only [print, hread, hlaid]

/-- **With a function the mode has to be a number.** -/
theorem run_insert_of_meets (h : MeetsFunction fs input name (sb ++ sa)) {arg : String}
    {v : Setting} (harg : settingOf arg = .ok ("indentMode", v)) :
    match v.toInt with
    | .error kind =>
        (run fs blocks (name :: (before ++ arg :: after)) input).failure =
            some (.layout (.functionIndent kind)) ∧
          (run fs blocks (name :: (before ++ arg :: after)) input).output = ""
    | .ok _ =>
        (run fs blocks (name :: (before ++ arg :: after)) input).failure = none ∧
          (run fs blocks (name :: (before ++ arg :: after)) input).output ≠ "" := by
  obtain ⟨style, start, stop, text, hrequest, hwidth, hread, hmem⟩ := h
  have hstyle := hothers.functions_eq hrequest
  rw [← State.fileMoves_blocks style blocks] at hmem
  rw [run_insert hbefore hafter hothers harg]
  simp only [hrequest, print, hread]
  cases hv : v.toInt with
  | error kind =>
      -- the first function fails, before anything is printed
      have hlaid := State.layFile_indenting_of_mem hstyle hwidth hmem kind
      simp only [functionsOf, hv]
      generalize State.layFile _ _ _ _ _ = laid at hlaid
      obtain ⟨st', result⟩ := laid
      cases hlaid
      exact ⟨rfl, rfl⟩
  | ok n =>
      -- a number makes the style proper, and a proper style prints a line at least
      have hproper : (style.indenting (.ofInt n)).Proper :=
        Style.proper_ofInt hwidth style.separate n
      obtain ⟨out, hout, hne⟩ :=
        State.layFile_ok hproper { blocks := blocks } (universal text) start stop
      simp only [functionsOf, hv]
      generalize State.layFile _ _ _ _ _ = laid at hout
      obtain ⟨st', result⟩ := laid
      cases hout
      refine ⟨rfl, ?_⟩
      show String.join (out.map fun l => String.ofList l ++ "\n") ≠ ""
      cases out with
      | nil => exact absurd rfl hne
      | cons l out => simp [String.join_cons]

end Runs

/-- **When the name of a mode does what its number does.** For every file or input, any blocks left
open, and any other settings before and after the mode: the two runs come to the same, in what they
print, in their warnings and in their failure, if and only if the text has no layout or no line of
it opens a function. Otherwise the run with the name fails at the first such line and prints
nothing, and the run with the number prints the text laid out. -/
theorem run_mode_name_eq_iff (m : Mode) (fs : Files) (blocks : Indent.Blocks) (input : List Char)
    (name : String) (before after : List String) (sb sa : List (String × Setting))
    (hbefore : settingsOf before = .ok sb) (hafter : settingsOf after = .ok sa)
    (hothers : ∀ s ∈ sb ++ sa, s.1 ≠ "indentMode") :
    let named := run fs blocks (name :: (before ++ m.byName :: after)) input
    let numbered := run fs blocks (name :: (before ++ m.byNumber :: after)) input
    (named = numbered ↔ ¬MeetsFunction fs input name (sb ++ sa)) ∧
    (MeetsFunction fs input name (sb ++ sa) →
      named.failure = some (.layout (.functionIndent .text)) ∧ named.output = "" ∧
        numbered.failure = none ∧ numbered.output ≠ "") := by
  intro named numbered
  have hfails : MeetsFunction fs input name (sb ++ sa) →
      named.failure = some (.layout (.functionIndent .text)) ∧ named.output = "" ∧
        numbered.failure = none ∧ numbered.output ≠ "" := by
    intro hmeets
    obtain ⟨hfailure, houtput⟩ :=
      run_insert_of_meets hbefore hafter hothers hmeets (settingOf_byName m)
    exact ⟨hfailure, houtput, run_insert_of_meets hbefore hafter hothers hmeets
      (settingOf_byNumber m)⟩
  refine ⟨⟨fun heq hmeets => ?_, fun hmeets => ?_⟩, hfails⟩
  · obtain ⟨hnamed, -, hnumbered, -⟩ := hfails hmeets
    rw [heq, hnumbered] at hnamed
    cases hnamed
  · exact run_insert_eq hbefore hafter hothers hmeets (settingOf_byName m) (settingOf_byNumber m)

/-- A function on the second line. -/
def functionText : List Char := "x\nfunction f\n".toList

/-- No function: the word stands inside a matrix. -/
def matrixText : List Char := "[\nfunction\n]\n".toList

/-- The style that the settings of the samples ask for. -/
def narrowStyle : Style := ⟨2, false, .fixed 1⟩

set_option maxRecDepth 4000 in
theorem fileMoves_samples :
    ({} : State).fileMoves narrowStyle (fileLines (universal functionText)) 1 none =
        [.keep, .function] ∧
      ({} : State).fileMoves narrowStyle (fileLines (universal matrixText)) 1 none =
        [.keep, .keep, .keep] := by
  cbv

theorem run_mode_name_eq_iff_samples :
    (run {} {} ["-", "--indentWidth=2", "--indentMode=classic", "--separateBlocks=false"]
        functionText).failure = some (.layout (.functionIndent .text)) ∧
      run {} {} ["-", "--indentWidth=2", "--indentMode=classic", "--separateBlocks=false"]
          matrixText =
        run {} {} ["-", "--indentWidth=2", "--indentMode=0", "--separateBlocks=false"]
          matrixText := by
  have hbefore : settingsOf ["--indentWidth=2"] = .ok [("indentWidth", .number 2)] := by
    decide +kernel
  have hafter : settingsOf ["--separateBlocks=false"] = .ok [("separateBlocks", .flag false)] := by
    decide +kernel
  have hothers : ∀ s ∈ [("indentWidth", Setting.number 2)] ++ [("separateBlocks", .flag false)],
      s.1 ≠ "indentMode" := by decide
  have hrequest : request ([("indentWidth", .number 2)] ++ [("separateBlocks", .flag false)]) =
      .ok (narrowStyle, 1, none) := by decide +kernel
  obtain ⟨hfunction, hmatrix⟩ := fileMoves_samples
  constructor
  · refine ((run_mode_name_eq_iff .classic {} {} functionText "-" _ _ _ _ hbefore hafter hothers).2
      ?_).1
    exact ⟨narrowStyle, 1, none, functionText, hrequest, by decide, rfl, by rw [hfunction]; decide⟩
  · refine (run_mode_name_eq_iff .classic {} {} matrixText "-" _ _ _ _ hbefore hafter
      hothers).1.2 ?_
    rintro ⟨style, start, stop, text, hstyle, -, hread, hmem⟩
    rw [hrequest] at hstyle
    cases hstyle
    cases hread
    rw [hmatrix] at hmem
    exact absurd hmem (by decide)

/-- A file with a function and nothing else. -/
def functionFile : Files :=
  { nodes := [(["a.m"], .file (Utf8.encode "function f\nx\nend\n".toList))] }

set_option maxRecDepth 4000 in
/-- **The name of a mode is not its number.** -/
theorem mode_name_fails :
    run functionFile {} ["a.m", "--indentMode=classic"] [] =
        { failure := some (.layout (.functionIndent .text)) } ∧
      run functionFile {} ["a.m", "--indentMode=0"] [] = { output := "function f\nx\nend\n" } := by
  cbv

end Pcode.Command.Format
