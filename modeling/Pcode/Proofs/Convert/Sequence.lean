import Pcode.Proofs.Convert.Outcome
import Pcode.Proofs.Indent.Blocks

set_option autoImplicit false

/-! # Conversions one after the other

The open blocks are the only thing besides the files that a conversion takes over from those
before it. Two conversions on the same files with different blocks open end with the same verdict
(`run_verdict_eq`), and write the same exactly if the blocks do not show in the layout of the
source (`run_files_eq`, `unseen_of_read_eq`).

Main statement: what a conversion does after others, compared with the same conversion on the same
files with no block open (`run_afterCalls_eq_iff`). -/

namespace Pcode.Convert

open Indent (Blocks)

/-! ## Layouts with blocks open -/

/-- The moves of a source. -/
def movesOf (source : List Char) : List Indent.Move :=
  Indent.State.textMoves style {} source 1 none

/-- How many closing words of a source have no block to close when none is open before it. -/
def excessEndsOf (source : List Char) : Nat :=
  (Indent.State.layText style {} source 1 none).1.excessEnds

theorem layText_follows (source : List Char) :
    ∃ render, ∀ b, Indent.State.Follows (movesOf source) b 0 render
      (Indent.State.layText style { blocks := b } source 1 none) := by
  have hfixed : style.functions = .fixed 1 := rfl
  obtain ⟨render, hrender⟩ := Indent.State.layText_steered hfixed (by decide) {} source 1 none
  exact ⟨render, fun b => hrender 0 b 0⟩

/-- Blocks that close the same steps give the same layout. -/
theorem laidOut_eq_of_steps_eq {b b' : Blocks} {source : List Char}
    (h : (b'.follow (movesOf source)).2.1 = (b.follow (movesOf source)).2.1) :
    laidOut b' source = laidOut b source := by
  obtain ⟨render, hrender⟩ := layText_follows source
  calc laidOut b' source
      = render (b'.follow (movesOf source)).2.1 := (hrender b').1
    _ = render (b.follow (movesOf source)).2.1 := by rw [h]
    _ = laidOut b source := (hrender b).1.symm

theorem excessEndsOf_eq (source : List Char) :
    excessEndsOf source = (({} : Blocks).follow (movesOf source)).2.2 := by
  obtain ⟨render, hrender⟩ := layText_follows source
  have hexcess : excessEndsOf source = 0 + _ := (hrender {}).2.2
  rw [hexcess, Nat.zero_add]

/-- A source that closes no more than it opens is laid out as if no block were open, unless one of
step two is. -/
theorem laidOut_eq_of_excessEndsOf {b : Blocks} (hb : b.Regular) (htwo : 2 ∉ b.control)
    {source : List Char} (hexcess : excessEndsOf source = 0) :
    laidOut b source = laidOut {} source := by
  rw [excessEndsOf_eq] at hexcess
  exact laidOut_eq_of_steps_eq ((hb.beneath_empty htwo).steps_eq hexcess)

/-- A source that closes a block it has not opened. -/
def strayEnd : List Char := "end\nx".toList

theorem movesOf_strayEnd : movesOf strayEnd = [.close, .keep] := by cbv

theorem laidOut_strayEnd_of_none : laidOut {} strayEnd = .ok "end\nx".toList := by cbv

/-- Any open block shows in the layout of a closing word in excess: an empty line follows it. -/
theorem laidOut_strayEnd {b : Blocks} (hb : b.Regular) (hopen : b ≠ {}) :
    laidOut b strayEnd = .ok "end\n\nx".toList := by
  have hone : laidOut { control := [1] } strayEnd = .ok "end\n\nx".toList := by cbv
  have htwo : laidOut { control := [2] } strayEnd = .ok "end\n\nx".toList := by cbv
  -- of the open blocks, only the step of the one that is closed matters
  have hstep : ∀ step, (b.follow [.close, .keep]).2.1 = [step, 0] →
      laidOut b strayEnd = laidOut { control := [step] } strayEnd := fun step h =>
    laidOut_eq_of_steps_eq (by rw [movesOf_strayEnd, h]; rfl)
  obtain ⟨control, functions⟩ := b
  cases control with
  | cons step rest =>
      rcases hb.control step (by simp) with rfl | rfl
      · exact (hstep 1 rfl).trans hone
      · exact (hstep 2 rfl).trans htwo
  | nil =>
      cases functions with
      | cons step rest =>
          obtain rfl := hb.functions step (by simp)
          exact (hstep 1 rfl).trans hone
      | nil => exact absurd rfl hopen

/-! ## Two conversions on the same files -/

section Compare

variable {inflate : Inflate} {w w' : Workspace} {pfile : String} (mfile : String)

/-- Whether what a conversion writes is the same with `b` and with `b'` open: the source, if there
is one and it can be written, is laid out in the same way. -/
def Unseen (inflate : Inflate) (fs : Files) (pfile mfile : String) (b b' : Blocks) : Prop :=
  ∀ source, SourceAt inflate fs pfile source → CanWrite fs mfile →
    laidOut b source = laidOut b' source

/-- The verdict depends on the files alone. -/
theorem run_verdict_eq (hfiles : w.files = w'.files) :
    (run inflate w pfile mfile).2 = (run inflate w' pfile mfile).2 := by
  cases hsource : sourceIn inflate w.files pfile with
  | error v => rw [run_of_verdict mfile hsource, run_of_verdict mfile (hfiles ▸ hsource)]
  | ok source =>
      obtain ⟨text, htext⟩ := laidOut_ok w.blocks source
      obtain ⟨text', htext'⟩ := laidOut_ok w'.blocks source
      have hrun := congrArg Prod.snd (run_of_source mfile hsource htext)
      have hrun' := congrArg Prod.snd (run_of_source mfile (hfiles ▸ hsource) htext')
      dsimp only at hrun hrun'
      rw [hrun, hrun', ← hfiles]
      rcases destination w.files mfile with ⟨fs, e | place⟩
      · rfl
      · rfl

/-- Blocks that cannot be seen leave no trace in the files. -/
theorem run_files_eq (hfiles : w.files = w'.files)
    (hunseen : Unseen inflate w.files pfile mfile w.blocks w'.blocks) :
    (run inflate w pfile mfile).1.files = (run inflate w' pfile mfile).1.files := by
  cases hsource : sourceIn inflate w.files pfile with
  | error v => rw [run_of_verdict mfile hsource, run_of_verdict mfile (hfiles ▸ hsource), hfiles]
  | ok source =>
      obtain ⟨text, htext⟩ := laidOut_ok w.blocks source
      obtain ⟨text', htext'⟩ := laidOut_ok w'.blocks source
      have hrun := congrArg Prod.fst (run_of_source mfile hsource htext)
      have hrun' := congrArg Prod.fst (run_of_source mfile (hfiles ▸ hsource) htext')
      have hsame := hunseen source (sourceIn_eq_ok_iff.1 hsource)
      unfold CanWrite at hsame
      rw [htext, htext'] at hsame
      dsimp only at hrun hrun'
      rw [hrun, hrun', ← hfiles]
      generalize destination w.files mfile = dest at hsame ⊢
      rcases dest with ⟨fs, e | place⟩
      · rfl
      · obtain rfl : text = text' := by simpa using hsame ⟨place, rfl⟩
        rfl

/-- Blocks that can be seen are seen in the written file. -/
theorem unseen_of_read_eq (hfiles : w.files = w'.files)
    (hread : (run inflate w pfile mfile).1.files.read (Path.ofString mfile).toString =
      (run inflate w' pfile mfile).1.files.read (Path.ofString mfile).toString) :
    Unseen inflate w.files pfile mfile w.blocks w'.blocks := by
  rintro source hat ⟨place, hplace⟩
  obtain ⟨text, htext⟩ := laidOut_ok w.blocks source
  obtain ⟨text', htext'⟩ := laidOut_ok w'.blocks source
  have hsource := sourceIn_eq_ok_iff.2 hat
  rw [read_run_of_place mfile hsource hplace htext,
    read_run_of_place mfile (hfiles ▸ hsource) (hfiles ▸ hplace) htext'] at hread
  rw [htext, htext', Utf8.encode_injective (Except.ok.inj hread)]

end Compare

/-! ## A conversion after others -/

/-- What is there after some conversions, each from a path to another, that began with no block
open. -/
def afterCalls (inflate : Inflate) (fs : Files) (calls : List (String × String)) : Workspace :=
  calls.foldl (fun w call => (run inflate w call.1 call.2).1) { files := fs }

theorem afterCalls_singleton (inflate : Inflate) (fs : Files) (pfile mfile : String) :
    afterCalls inflate fs [(pfile, mfile)] = (run inflate { files := fs } pfile mfile).1 := rfl

theorem regular_layText {b : Blocks} (hb : b.Regular) (source : List Char) :
    (Indent.State.layText style { blocks := b } source 1 none).1.blocks.Regular := by
  have hfixed : style.functions = .fixed 1 := rfl
  obtain ⟨render, hrender⟩ := layText_follows source
  rw [(hrender b).2.1]
  exact hb.follow fun m hm => Indent.State.proper_of_mem_textMoves hfixed hm

/-- Writing leaves open what the layout does, unless the folders cannot be made. -/
theorem blocks_writeSource (w : Workspace) (mfile : String) (source : List Char) :
    (writeSource {} w mfile source).1.blocks =
      match (w.files.ensureFolders (Path.ofString mfile).root
        (Path.ofString mfile).parent.names.reverse).2 with
      | .error _ => w.blocks
      | .ok _ => (Indent.State.layText style { blocks := w.blocks } source 1 none).1.blocks := by
  obtain ⟨text, htext⟩ := laidOut_ok w.blocks source
  have hlaid : layOut {} w.blocks source = (_, .ok text) := layOut_of_layingOut rfl htext
  unfold writeSource
  dsimp only
  rcases w.files.ensureFolders (Path.ofString mfile).root
    (Path.ofString mfile).parent.names.reverse with ⟨fs, e | _⟩
  · rfl
  · simp only [hlaid]

theorem blocks_run_of_source {inflate : Inflate} {w : Workspace} {pfile : String}
    {source : List Char} (hsource : sourceIn inflate w.files pfile = .ok source)
    (mfile : String) :
    (run inflate w pfile mfile).1.blocks = (writeSource {} w mfile source).1.blocks := by
  rw [run, runOn_eq rfl, hsource]
  simp only
  generalize writeSource {} w mfile source = written
  rcases written with ⟨w', e | _⟩
  · rfl
  · rfl

/-- A conversion leaves regular blocks open if such were open before it. -/
theorem regular_run {inflate : Inflate} {w : Workspace} (hw : w.blocks.Regular)
    (pfile mfile : String) : (run inflate w pfile mfile).1.blocks.Regular := by
  cases hsource : sourceIn inflate w.files pfile with
  | error v =>
      rw [run_of_verdict mfile hsource]
      exact hw
  | ok source =>
      rw [blocks_run_of_source hsource, blocks_writeSource]
      split
      · exact hw
      · exact regular_layText hw source

theorem regular_afterCalls (inflate : Inflate) (fs : Files) (calls : List (String × String)) :
    (afterCalls inflate fs calls).blocks.Regular := by
  have hrun : ∀ w : Workspace, w.blocks.Regular →
      (calls.foldl (fun w call => (run inflate w call.1 call.2).1) w).blocks.Regular := by
    induction calls with
    | nil => exact fun w hw => hw
    | cons call calls ih =>
        intro w hw
        rw [List.foldl_cons]
        exact ih (run inflate w call.1 call.2).1 (regular_run hw call.1 call.2)
  exact hrun { files := fs } Blocks.Regular.empty

/-- **What conversions take over from those before them.** After any conversions, the next one
ends with the verdict that it would have on the same files with no block open. It writes the same
exactly if the open blocks cannot be seen in the layout of its source, and then all files are the
same. The open blocks can be seen in no source at all exactly if there are none; and of those that
are there, none is seen in a source that closes only what it opens, unless a block of step two is
among them. -/
theorem run_afterCalls_eq_iff (inflate : Inflate) (fs : Files) (calls : List (String × String))
    (pfile mfile : String) :
    let w := afterCalls inflate fs calls
    let fresh : Workspace := { files := w.files }
    let path := (Path.ofString mfile).toString
    (run inflate w pfile mfile).2 = (run inflate fresh pfile mfile).2 ∧
      ((run inflate w pfile mfile).1.files.read path =
          (run inflate fresh pfile mfile).1.files.read path ↔
        Unseen inflate w.files pfile mfile w.blocks {}) ∧
      (Unseen inflate w.files pfile mfile w.blocks {} →
        (run inflate w pfile mfile).1.files = (run inflate fresh pfile mfile).1.files) ∧
      ((∀ source, laidOut w.blocks source = laidOut {} source) ↔ w.blocks = {}) ∧
      (2 ∉ w.blocks.control → ∀ source, excessEndsOf source = 0 →
        laidOut w.blocks source = laidOut {} source) := by
  have hregular := regular_afterCalls inflate fs calls
  generalize afterCalls inflate fs calls = w at hregular ⊢
  intro w fresh path
  have hfiles : w.files = fresh.files := rfl
  refine ⟨run_verdict_eq mfile hfiles, ⟨unseen_of_read_eq mfile hfiles, fun h => ?_⟩,
    run_files_eq mfile hfiles, ⟨fun h => ?_, fun h source => by rw [h]⟩,
    fun htwo source hexcess => laidOut_eq_of_excessEndsOf hregular htwo hexcess⟩
  · rw [run_files_eq mfile hfiles h]
  · by_contra hopen
    have hseen := h strayEnd
    rw [laidOut_strayEnd hregular hopen, laidOut_strayEnd_of_none] at hseen
    exact absurd hseen (by decide +kernel)

/-! ## A block that is seen -/

/-- Wherever a source closes a block it has not opened, it shows whether one is open. -/
theorem read_run_strayEnd {inflate : Inflate} {w : Workspace} {pfile mfile : String}
    {place : Place} (hregular : w.blocks.Regular) (hopen : w.blocks ≠ {})
    (hsource : sourceIn inflate w.files pfile = .ok strayEnd)
    (hplace : (destination w.files mfile).2 = .ok place) :
    (run inflate w pfile mfile).1.files.read (Path.ofString mfile).toString =
        .ok (Utf8.encode "end\n\nx".toList) ∧
      (run inflate { files := w.files } pfile mfile).1.files.read (Path.ofString mfile).toString =
        .ok (Utf8.encode "end\nx".toList) :=
  ⟨read_run_of_place mfile hsource hplace (laidOut_strayEnd hregular hopen),
    read_run_of_place (w := { files := w.files }) mfile hsource hplace laidOut_strayEnd_of_none⟩

/-- A file with one name and some code, stored without compression. -/
def storedFile (name : List Char) (items : List Bytecode.Item) : Node :=
  let plain := Program.encode [[name], [], [], [], [], [], []] items
  .file (Container.sealing 0 plain.length (Zlib.store plain)).toBytes

/-- A function that is not closed, and a closing word in excess. -/
def strayFiles : Files where
  nodes := [(["a.p"], storedFile ['f'] [.token 1, .name 0]),
    (["b.p"], storedFile ['x'] [.token 8, .token 100, .name 0])]

set_option maxRecDepth 4000 in
theorem layText_openFunction :
    (Indent.State.layText style {} "function f".toList 1 none).1.blocks = { functions := [1] } ∧
      laidOut {} "function f".toList = .ok "function f".toList := by
  constructor
  · cbv
  · cbv

/-- The function that the first file leaves open is closed by the second, which gets an empty line
for it. -/
theorem open_function_seen :
    let w := afterCalls Zlib.inflate strayFiles [("a.p", "a.m")]
    let path := (Path.ofString "b.m").toString
    (run Zlib.inflate w "b.p" "b.m").1.files.read path = .ok (Utf8.encode "end\n\nx".toList) ∧
      (run Zlib.inflate { files := w.files } "b.p" "b.m").1.files.read path =
        .ok (Utf8.encode "end\nx".toList) := by
  obtain ⟨hopened, htext⟩ := layText_openFunction
  have hregular := regular_afterCalls Zlib.inflate strayFiles [("a.p", "a.m")]
  have hsource : sourceIn Zlib.inflate strayFiles "a.p" = .ok "function f".toList := by
    decide +kernel
  have hplace : (destination strayFiles "a.m").2 = .ok ["a.m"] := by decide +kernel
  have hfolders : (strayFiles.ensureFolders (Path.ofString "a.m").root
      (Path.ofString "a.m").parent.names.reverse).2 = .ok () := by decide +kernel
  have hblocks : (afterCalls Zlib.inflate strayFiles [("a.p", "a.m")]).blocks =
      { functions := [1] } := by
    rw [afterCalls_singleton, blocks_run_of_source (w := { files := strayFiles }) hsource,
      blocks_writeSource, hfolders]
    exact hopened
  have hfiles : (afterCalls Zlib.inflate strayFiles [("a.p", "a.m")]).files =
      (destination strayFiles "a.m").1.put ["a.m"]
        (.file (Utf8.encode "function f".toList)) := by
    rw [afterCalls_singleton]
    exact run_of_place (w := { files := strayFiles }) "a.m" hsource hplace htext
  generalize afterCalls Zlib.inflate strayFiles [("a.p", "a.m")] = w at hregular hblocks hfiles ⊢
  have hsource' : sourceIn Zlib.inflate w.files "b.p" = .ok strayEnd := by
    rw [hfiles]
    decide +kernel
  have hplace' : (destination w.files "b.m").2 = .ok ["b.m"] := by
    rw [hfiles]
    decide +kernel
  exact read_run_strayEnd hregular (by rw [hblocks]; decide) hsource' hplace'

end Pcode.Convert
