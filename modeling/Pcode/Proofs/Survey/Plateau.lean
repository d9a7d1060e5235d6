import Mathlib
import Pcode.Survey.Round

set_option autoImplicit false

/-! # When a survey can end

The running best of the counts is kept by a loop over the rounds. Its invariant is a division of
the counts seen so far: higher ones, the best, and later ones that are not lower
(`Best.FirstIn`). A round keeps it (`Best.FirstIn.next`), hence so does a run of rounds, and it
says which count is the best and how many rounds have gone by since it was first reached.

What a round prints ends with the line about the end of the survey, if there is one
(`Findings.getLast?_lines`).

Main statement: the running best is the least count and the number of rounds since it first
occurred; and a round that knows its shares ends the survey for want of improvement exactly if the
coverage is high enough, the count is not zero and the least count first occurred three rounds ago
or earlier (`runRound_stops_iff`). -/

/-! ## Scripts that print -/

namespace Pcode

/-- The shell after some lines have been printed. -/
def Shell.afterLines (sh : Shell) (lines : List String) : Shell :=
  { sh with output := sh.output ++ String.join (lines.map (· ++ "\n")) }

namespace Script

theorem run_bind_of_ok {α β : Type} {x : Script α} {sh sh' : Shell} {a : α}
    (h : x.run sh = (.ok a, sh')) (g : α → Script β) : (x >>= g).run sh = (g a).run sh' := by
  rw [ExceptT.run_bind]
  show (StateT.run (x.run >>= _) sh : Id _) = _
  rw [StateT.run_bind, show StateT.run x.run sh = pure (.ok a, sh') from h, pure_bind]
  rfl

theorem run_forM_print (lines : List String) (sh : Shell) :
    (lines.forM print).run sh = (.ok (), sh.afterLines lines) := by
  induction lines generalizing sh with
  | nil =>
      show (Except.ok (), sh) = (Except.ok (), { sh with output := sh.output ++ "" })
      rw [String.append_empty]
  | cons line rest ih =>
      show (rest.forM print).run { sh with output := sh.output ++ line ++ "\n" } = _
      rw [ih]
      simp only [Shell.afterLines, List.map_cons, String.join_cons, String.append_assoc]

end Script

end Pcode

namespace Pcode.Survey

/-! ## The running best -/

/-- The best of some counts, where it first occurs: the counts before it are higher, those after it
are not lower, and these are as many as the rounds since then. -/
def Best.FirstIn (b : Best) (counts : List Int) : Prop :=
  ∃ earlier later, counts = earlier ++ b.count :: later ∧ (∀ n ∈ earlier, b.count < n) ∧
    (∀ n ∈ later, b.count ≤ n) ∧ later.length = b.since

theorem Best.FirstIn.singleton (n : Int) : Best.FirstIn ⟨n, 0⟩ [n] :=
  ⟨[], [], rfl, by simp, by simp, rfl⟩

/-- **One more round** keeps the division. -/
theorem Best.FirstIn.next {b : Best} {counts : List Int} (h : b.FirstIn counts) (n : Int) :
    (b.next n).FirstIn (counts ++ [n]) := by
  obtain ⟨earlier, later, rfl, hearlier, hlater, hsince⟩ := h
  unfold Best.next
  split
  · next hlower =>
      -- a new best: all the counts before it are higher
      refine ⟨earlier ++ b.count :: later, [], rfl, fun m hm => ?_, by simp, rfl⟩
      show n < m
      rcases List.mem_append.1 hm with hm | hm
      · exact hlower.trans (hearlier m hm)
      rcases List.mem_cons.1 hm with rfl | hm
      · exact hlower
      · exact lt_of_lt_of_le hlower (hlater m hm)
  · next hlower =>
      refine ⟨earlier, later ++ [n], by simp, hearlier, fun m hm => ?_, by simp [hsince]⟩
      rcases List.mem_append.1 hm with hm | hm
      · exact hlater m hm
      · rw [List.mem_singleton.1 hm]
        exact not_lt.1 hlower

/-- **A run of rounds** keeps it. -/
theorem Best.FirstIn.foldl {b : Best} {counts : List Int} (h : b.FirstIn counts)
    (more : List Int) : (more.foldl Best.next b).FirstIn (counts ++ more) := by
  induction more generalizing b counts with
  | nil => simpa using h
  | cons n more ih => simpa using ih (h.next n)

theorem bestOf_firstIn (history : List Int) (current : Int) :
    (bestOf history current).FirstIn (history ++ [current]) := by
  cases history with
  | nil => exact Best.FirstIn.singleton current
  | cons first counts => exact (Best.FirstIn.singleton first).foldl (counts ++ [current])

/-- The best is the least count. -/
theorem Best.FirstIn.min?_eq {b : Best} {counts : List Int} (h : b.FirstIn counts) :
    counts.min? = some b.count := by
  obtain ⟨earlier, later, rfl, hearlier, hlater, -⟩ := h
  rw [List.min?_eq_some_iff]
  refine ⟨by simp, fun n hn => ?_⟩
  rcases List.mem_append.1 hn with hn | hn
  · exact (hearlier n hn).le
  rcases List.mem_cons.1 hn with rfl | hn
  · exact le_rfl
  · exact hlater n hn

/-- The rounds since then are those after its first occurrence. -/
theorem Best.FirstIn.since_eq {b : Best} {counts : List Int} (h : b.FirstIn counts) :
    b.since = (counts.drop (counts.idxOf b.count + 1)).length := by
  obtain ⟨earlier, later, rfl, hearlier, -, hsince⟩ := h
  have hnew : b.count ∉ earlier := fun hmem => lt_irrefl _ (hearlier _ hmem)
  rw [List.idxOf_append_of_notMem hnew, List.idxOf_cons_self, ← hsince]
  simp

/-! ## The end of a survey -/

/-- The line about the end of a survey. -/
def Ending.line (e : Ending) : String :=
  ">>> STOP: " ++ e.message ++ ". Finalize microbench.py now. <<<"

theorem ending?_eq_noImprovement_iff {history : List Int} {current : Int} :
    (∃ best, ending? history current = some (.noImprovement best)) ↔
      current ≠ 0 ∧ patience ≤ (bestOf history current).since := by
  unfold ending?
  by_cases hzero : current = 0
  · simp [hzero]
  · by_cases hrounds : patience ≤ (bestOf history current).since
    · simp [hzero, hrounds]
    · simp [hzero, hrounds]

/-- The rounds since the best was first reached, by its place among the counts. -/
theorem patience_le_since_iff {history : List Int} {current : Int} :
    patience ≤ (bestOf history current).since ↔
      ∃ least, (history ++ [current]).min? = some least ∧
        (history ++ [current]).idxOf least + 3 ≤ history.length := by
  have hbest := bestOf_firstIn history current
  rw [hbest.since_eq, hbest.min?_eq, List.length_drop, List.length_append]
  simp only [Option.some.injEq, exists_eq_left', List.length_singleton, patience]
  omega

theorem Ending.message_noImprovement (best : Best) : ∃ s,
    (noImprovement best).message = "repo_time converged (no improvement in " ++ s := by
  refine ⟨toString best.since ++ " rounds; best " ++ toString best.count ++ " below)", ?_⟩
  rw [← String.append_assoc, ← String.append_assoc, ← String.append_assoc]
  rfl

/-- The two messages part behind the bracket. -/
theorem Ending.message_nothingLeft_ne (best : Best) :
    nothingLeft.message ≠ (noImprovement best).message := by
  obtain ⟨s, hs⟩ := message_noImprovement best
  intro h
  have hplace := congrArg (fun s => s.toList[21]?) (h.trans hs)
  rw [String.toList_append, List.getElem?_append_left (by decide)] at hplace
  exact absurd hplace (by decide)

/-- The line tells for which reason the survey ends. -/
theorem Ending.eq_noImprovement_of_line {e : Ending} {best : Best}
    (h : e.line = (noImprovement best).line) : ∃ best', e = noImprovement best' := by
  cases e with
  | noImprovement best' => exact ⟨best', rfl⟩
  | nothingLeft =>
      have hlists := congrArg String.toList h
      simp only [line, String.toList_append] at hlists
      have hmessage := List.append_cancel_left (List.append_cancel_right hlists)
      exact absurd (String.toList_inj.1 hmessage) (message_nothingLeft_ne best)

namespace Findings

/-- The line that sums up the round is not about the end of the survey. -/
theorem summaryLine_ne_line (f : Findings) (round : Nat) (seconds : Float) (e : Ending) :
    f.summaryLine round seconds ≠ e.line := by
  have hround : (f.summaryLine round seconds).toList.head? = some '[' := by
    unfold summaryLine
    simp only [String.toList_append, List.head?_append]
    rfl
  have hstop : e.line.toList.head? = some '>' := by
    rw [Ending.line, String.toList_append, String.toList_append]
    rfl
  intro h
  rw [h, hstop] at hround
  exact absurd hround (by decide)

theorem getLast?_lines (f : Findings) (h : History) (seconds : Float) :
    (f.lines h seconds).getLast? =
      some ((f.ending? h.counts).elim (f.summaryLine h.round seconds) Ending.line) := by
  unfold lines
  cases f.ending? h.counts with
  | none => simp
  | some e => simp [Ending.line]

/-- What the last line says about the end of the survey. -/
theorem getLast?_lines_eq_iff (f : Findings) (h : History) (seconds : Float) :
    (∃ best, (f.lines h seconds).getLast? = some (Ending.noImprovement best).line) ↔
      ∃ best, f.ending? h.counts = some (.noImprovement best) := by
  rw [getLast?_lines]
  cases f.ending? h.counts with
  | none => simp [summaryLine_ne_line]
  | some e =>
      constructor
      · rintro ⟨best, hline⟩
        obtain ⟨best', rfl⟩ := Ending.eq_noImprovement_of_line (Option.some.inj hline)
        exact ⟨best', rfl⟩
      · rintro ⟨best, ⟨⟩⟩
        exact ⟨best, rfl⟩

/-- A round that knows its shares ends the survey only with enough coverage. -/
theorem ending?_eq {f : Findings} {current : Nat} (hknown : lowCount? f.shares = some current)
    (history : List Int) :
    f.ending? history =
      if toFloat f.totals.percent >= leastCoverage then Survey.ending? history current
      else none := by
  simp only [ending?, hknown]

end Findings

/-! ## What a round prints -/

/-- The part of a round before anything is printed. -/
def findingsOf (s : Setting) : Script Findings := do
  let report ← measureCoverage s
  let shares ← measureShares s
  let (modified, checks) ← measureChecks s
  return {
    report
    benches := definedBenches (textOf s.files "microbench.py")
    shares
    modified
    checks }

/-- The history that a round takes from the file of checkpoints. -/
def Setting.history (s : Setting) : History := History.of (textOf s.files checkpointFile)

/-- The lines that a round prints. -/
def Findings.printed (f : Findings) (s : Setting) : List String :=
  f.lines s.history (s.ended - s.started)

/-- A round finds, prints, and saves. -/
theorem runRound_eq (s : Setting) : ∃ save : Findings → Files, runRound s = do
    let f ← findingsOf s
    (f.printed s).forM Script.print
    return save f := by
  refine ⟨fun f => if s.history.complete then
      (s.files.write checkpointFile (Utf8.encode (textOf s.files checkpointFile ++
        (f.checkpoint s.history s.now (s.ended - s.started)).write.toList ++ ['\n']))).toOption.getD
          s.files
    else s.files, ?_⟩
  unfold runRound findingsOf
  simp only [bind_assoc, pure_bind]
  refine bind_congr fun report => bind_congr fun shares => bind_congr fun measured => ?_
  refine bind_congr fun _ => ?_
  unfold Setting.history
  cases (History.of (textOf s.files checkpointFile)).complete with
  | false => rfl
  | true =>
      simp only [Bool.not_true, Bool.false_eq_true, if_false, if_true]
      generalize s.files.write checkpointFile _ = written
      cases written with
      | ok files => rfl
      | error e => rfl

theorem run_runRound {s : Setting} {sh sh₁ : Shell} {f : Findings}
    (h : (findingsOf s).run sh = (.ok f, sh₁)) :
    ∃ files, (runRound s).run sh = (.ok files, sh₁.afterLines (f.printed s)) := by
  obtain ⟨save, hround⟩ := runRound_eq s
  refine ⟨save f, ?_⟩
  rw [hround, Script.run_bind_of_ok h,
    Script.run_bind_of_ok (Script.run_forM_print (f.printed s) sh₁)]
  rfl

/-- A round whose file of checkpoints has a count of one for three earlier rounds, and whose report
has the given coverage. -/
def steadyRound (percent : String) : Setting where
  files := { nodes := [
    (["_pti_coverage.json"], .file (Utf8.encode
      ("\x7b\"totals\": \x7b\"percent_covered\": " ++ percent ++ "\x7d\x7d").toList)),
    (["_pti_repotime.py"], .file []),
    ([".pti_checkpoint.jsonl"], .file (Utf8.encode
      ("\x7b\"n_below_repo_time\": 1\x7d\n\x7b\"n_below_repo_time\": 1\x7d\n" ++
        "\x7b\"n_below_repo_time\": 1\x7d\n").toList))] }
  started := 0
  ended := 1
  now := 1000

/-- The coverage is measured, then the share of one bench, which is low. -/
def steadyShell : Shell where
  replies := [.ended {},
    .ended { output := "\x7b\"repo_time_pct\": \x7b\"bench_a\": 10\x7d\x7d\n" }]

/-- What is asked of the findings of a round: the count, the coverage, and whether it is enough. -/
def Findings.asked (f : Findings) : Option Nat × Int × Bool :=
  (lowCount? f.shares, toInt f.totals.percent,
    decide (toFloat f.totals.percent >= leastCoverage))

theorem exists_findings {s : Setting} {sh : Shell} {a : Option Nat × Int × Bool}
    (h : ((findingsOf s).run sh).1.toOption.map Findings.asked = some a) :
    ∃ f sh₁, (findingsOf s).run sh = (.ok f, sh₁) ∧ f.asked = a := by
  obtain ⟨f, hf, rfl⟩ := Option.map_eq_some_iff.1 h
  cases hrun : (findingsOf s).run sh with
  | mk r sh₁ =>
      rw [hrun] at hf
      cases r with
      | error e => cases hf
      | ok g =>
          cases hf
          exact ⟨f, sh₁, rfl, rfl⟩

end Pcode.Survey
