import Pcode.Proofs.Convert.Outcome
import Pcode.Proofs.Files.Path
import Pcode.Window

set_option autoImplicit false

/-! # What the window shows over a session

The window has no memory but for the container that was chosen last: everything it remembers of it
follows from the answer of that file dialog (`Remembers`), and between two steps its progress bar
rests. Each button keeps this (`select_consistent`, `convert_consistent`, and viewing changes
nothing), so it holds after every session (`after_consistent`).

Main statement: what a step of a session can do, after any steps before it
(`session_consistent`). -/

namespace Pcode

/-! ## What a conversion changes -/

/-- A content that a conversion changes is that of the file it writes. It ends with code zero, or it
was stopped while it stored the text, and the file holds a first part of it. -/
theorem Convert.changed_of_runOn {host : Host} {inflate : Inflate} {w : Workspace}
    {pfile mfile : String} {q : Place}
    (h : (runOn host inflate w pfile mfile).1.files.content? q ≠ w.files.content? q) :
    (runOn host inflate w pfile mfile).1.files.locate (Path.ofString mfile).toString = .ok q ∧
      ((runOn host inflate w pfile mfile).2.code = 0 ∨
        (runOn host inflate w pfile mfile).2.code ≠ 0 ∧
          ∃ content size halt, host.storing content = some (size, halt) ∧
            (runOn host inflate w pfile mfile).1.files.content? q = some (content.take size)) := by
  have hends := runOn_ends host inflate w pfile mfile
  -- where one content is known and the others are as before, the one that has changed is known
  have hplace : ∀ {content}, Holds w mfile (runOn host inflate w pfile mfile).1.files content →
      (runOn host inflate w pfile mfile).1.files.locate (Path.ofString mfile).toString = .ok q ∧
        (runOn host inflate w pfile mfile).1.files.content? q = some content := by
    rintro content ⟨place, hlocate, hcontent, hothers⟩
    have hq : q = place := by
      by_contra hne
      exact h (hothers q hne)
    rw [hq]
    exact ⟨hlocate, hcontent⟩
  by_cases hcode : (runOn host inflate w pfile mfile).2.code = 0
  · obtain ⟨source, text, -, -, hholds⟩ := hends.holds_of_code_eq_zero hcode
    exact ⟨(hplace hholds).1, .inl hcode⟩
  · rcases hends.contents_of_code_ne_zero hcode with hkeep | ⟨text, size, hstops, hholds⟩
    · exact absurd (hkeep q) h
    · obtain ⟨-, source, halt, -, -, -, hstoring⟩ := hstops
      exact ⟨(hplace hholds).1, .inr ⟨hcode, _, size, halt, hstoring, (hplace hholds).2⟩⟩

namespace Window

/-! ## Choices -/

/-- The answer of a file dialog by which a container is chosen. -/
def Action.choice? : Action → Option String
  | .select answer => if endsWith answer ".p" then some answer else none
  | .convert => none
  | .view => none

/-- The answer by which a container was chosen last. -/
def latest (actions : List Action) : Option String := (actions.filterMap Action.choice?).getLast?

/-- The choice after one more action. -/
theorem latest_concat (actions : List Action) (action : Action) :
    latest (actions ++ [action]) = action.choice?.or (latest actions) := by
  unfold latest
  rw [List.filterMap_append, List.getLast?_append]
  cases h : action.choice? with
  | none => simp [h]
  | some answer => simp [h]

theorem endsWith_eq_true {s e : String} (h : endsWith s e = true) :
    ∃ t, s.toList = t ++ e.toList := by
  obtain ⟨t, ht⟩ := List.isPrefixOf_iff_prefix.1 h
  refine ⟨t.reverse, ?_⟩
  rw [← List.reverse_reverse s.toList, ← ht, List.reverse_append, List.reverse_reverse]

/-- A container that was chosen has a place for its source beside it. -/
theorem exists_withSuffix?_of_endsWith {answer : String} (h : endsWith answer ".p" = true) :
    ∃ m, (Path.ofString answer).withSuffix? ".m" = some m ∧ m.Proper := by
  obtain ⟨t, ht⟩ := endsWith_eq_true h
  obtain ⟨part, hpart⟩ := Path.name_ofString_append ht (by decide) (by decide)
  have hname : (Path.ofString answer).name ≠ "" := by
    rw [hpart]
    intro hempty
    have hnil := congrArg String.toList hempty
    rw [String.toList_ofList] at hnil
    exact absurd hnil (by simp)
  have hsuffix := Path.withSuffix?_of_name_ne hname ".m"
  exact ⟨_, hsuffix, (Path.proper_ofString answer).withSuffix? (by decide) (by decide) hsuffix⟩

/-! ## What is remembered -/

/-- What the window remembers of a choice. -/
def Remembers (win : Window) : Option String → Prop
  | none => win.pfile = none ∧ win.mfile = none ∧ win.folder = none ∧ win.fileLabel = noFileLabel
  | some answer =>
      win.pfile = some (Path.ofString answer) ∧
        (∃ m, (Path.ofString answer).withSuffix? ".m" = some m ∧ win.mfile = some m) ∧
        win.folder = some (Path.ofString answer).parent ∧
        win.fileLabel = "File: " ++ (Path.ofString answer).name

/-- The window between two steps: it remembers the choice, and the progress bar rests. -/
structure Consistent (win : Window) (choice : Option String) : Prop where
  remembers : win.Remembers choice
  chosen : ∀ answer, choice = some answer → endsWith answer ".p" = true
  hidden : win.progressShown = false
  stopped : win.progressRunning = false

theorem consistent_empty : Consistent {} none :=
  ⟨⟨rfl, rfl, rfl, rfl⟩, nofun, rfl, rfl⟩

theorem fileLabel_ne (name : String) : "File: " ++ name ≠ noFileLabel := by
  intro h
  have hlist := congrArg String.toList h
  rw [String.toList_append] at hlist
  have hhead : 'F' = 'N' := (List.cons.inj hlist).1
  exact absurd hhead (by decide)

variable {win : Window} {choice : Option String}

/-- Nothing is chosen exactly if there is no place for a source and the label says so. -/
theorem Remembers.pfile_eq_none_iff (h : win.Remembers choice) :
    win.pfile = none ↔ win.mfile = none ∧ win.fileLabel = noFileLabel := by
  cases choice with
  | none =>
      obtain ⟨hpfile, hmfile, -, hlabel⟩ := h
      exact ⟨fun _ => ⟨hmfile, hlabel⟩, fun _ => hpfile⟩
  | some answer =>
      obtain ⟨hpfile, -, -, hlabel⟩ := h
      constructor
      · intro hnone
        rw [hpfile] at hnone
        cases hnone
      · rintro ⟨-, hnone⟩
        rw [hlabel] at hnone
        exact absurd hnone (fileLabel_ne _)

/-- A container is never chosen while the label says that none is. -/
theorem Remembers.fileLabel_ne_of_pfile (h : win.Remembers choice) {p : Path}
    (hp : win.pfile = some p) : win.fileLabel ≠ noFileLabel := by
  cases choice with
  | none =>
      rw [h.1] at hp
      cases hp
  | some answer =>
      rw [h.2.2.2]
      exact fileLabel_ne _

/-- The place of the source is beside the container. -/
theorem Remembers.mfile_eq (h : win.Remembers choice) {p : Path} (hp : win.pfile = some p) :
    ∃ m, p.withSuffix? ".m" = some m ∧ win.mfile = some m := by
  cases choice with
  | none =>
      rw [h.1] at hp
      cases hp
  | some answer =>
      obtain ⟨hpfile, hmfile, -, -⟩ := h
      rw [hpfile] at hp
      cases hp
      exact hmfile

/-- What the next file dialog opens in. -/
theorem Remembers.folder_eq (h : win.Remembers choice) :
    win.folder = choice.map fun answer => (Path.ofString answer).parent := by
  cases choice with
  | none => exact h.2.2.1
  | some answer => exact h.2.2.1

theorem Consistent.proper_mfile (h : win.Consistent choice) {m : Path} (hm : win.mfile = some m) :
    m.Proper := by
  cases choice with
  | none =>
      rw [h.remembers.2.1] at hm
      cases hm
  | some answer =>
      obtain ⟨-, ⟨m', hsuffix, hmfile⟩, -, -⟩ := h.remembers
      obtain ⟨m'', hsuffix', hproper⟩ := exists_withSuffix?_of_endsWith (h.chosen answer rfl)
      rw [hsuffix] at hsuffix'
      rw [hmfile] at hm
      cases hsuffix'
      cases hm
      exact hproper

/-! ## One step -/

theorem select_consistent (h : win.Consistent choice) (answer : String) (needed : Int) :
    (win.select answer needed).2 = none ∧
      (win.select answer needed).1.Consistent ((Action.select answer).choice?.or choice) := by
  unfold select Action.choice?
  by_cases hends : endsWith answer ".p" = true
  · obtain ⟨m, hsuffix, -⟩ := exists_withSuffix?_of_endsWith hends
    simp only [hends, hsuffix, Bool.not_true, Bool.false_eq_true, if_false, if_true, Option.some_or]
    refine ⟨trivial, ⟨rfl, ⟨m, hsuffix, rfl⟩, rfl, rfl⟩, fun other hother => ?_, h.hidden,
      h.stopped⟩
    rwa [← Option.some.inj hother]
  · simp only [hends, Bool.not_false, if_true, Bool.false_eq_true, if_false, Option.none_or]
    exact ⟨trivial, h⟩

/-- A chosen container is converted to the source beside it. -/
theorem convert_of_chosen {p m : Path} (hp : win.pfile = some p) (hm : win.mfile = some m)
    (hlabel : win.fileLabel ≠ noFileLabel) (hsuffix : p.suffix = ".p") (host : Convert.Host)
    (inflate : Inflate) (w : Workspace) (needed : Int) :
    win.convert host inflate w needed =
      (fit { win.startProgress.stopProgress with
          status := (Convert.runOn host inflate w p.toString m.toString).2.message
          color := if (Convert.runOn host inflate w p.toString m.toString).2.code = 0
            then .green else .red } needed,
        (Convert.runOn host inflate w p.toString m.toString).1, none) := by
  obtain ⟨pfile, mfile, folder, label, status, color, geometry, shown, running⟩ := win
  obtain rfl : pfile = some p := hp
  obtain rfl : mfile = some m := hm
  have hnamed : (label != noFileLabel) = true := by simpa using hlabel
  simp only [convert, startProgress, hsuffix, hnamed, bne_self_eq_false, if_true]
  rfl

/-- What converting comes to: nothing to convert, or a conversion from the container to the source
beside it. -/
theorem convert_cases (h : win.Consistent choice) (host : Convert.Host) (inflate : Inflate)
    (w : Workspace) (needed : Int) :
    win.convert host inflate w needed =
        (fit win.startProgress.stopProgress.refuse needed, w, none) ∨
      ∃ p m, win.pfile = some p ∧ win.mfile = some m ∧
        win.convert host inflate w needed =
          (fit { win.startProgress.stopProgress with
              status := (Convert.runOn host inflate w p.toString m.toString).2.message
              color := if (Convert.runOn host inflate w p.toString m.toString).2.code = 0
                then .green else .red } needed,
            (Convert.runOn host inflate w p.toString m.toString).1, none) := by
  cases hp : win.pfile with
  | none =>
      left
      unfold convert
      simp only [show win.startProgress.pfile = none from hp]
  | some p =>
      obtain ⟨m, -, hm⟩ := h.remembers.mfile_eq hp
      -- the file `.p` ends in `.p` and has no suffix: it can be chosen, but not converted
      by_cases hsuffix : p.suffix = ".p"
      · exact .inr ⟨p, m, rfl, hm, convert_of_chosen hp hm
          (h.remembers.fileLabel_ne_of_pfile hp) hsuffix host inflate w needed⟩
      · left
        unfold convert
        simp only [show win.startProgress.pfile = some p from hp]
        exact if_pos (by simpa using hsuffix)

/-- A window that looks as before but for its progress bar, its status and its size. -/
theorem Consistent.of_eq {win' : Window} (h : win.Consistent choice) (hp : win'.pfile = win.pfile)
    (hm : win'.mfile = win.mfile) (hf : win'.folder = win.folder)
    (hl : win'.fileLabel = win.fileLabel) (hidden : win'.progressShown = false)
    (stopped : win'.progressRunning = false) : win'.Consistent choice := by
  refine ⟨?_, h.chosen, hidden, stopped⟩
  have hremembers := h.remembers
  cases choice with
  | none => simpa only [Remembers, hp, hm, hf, hl] using hremembers
  | some answer => simpa only [Remembers, hp, hm, hf, hl] using hremembers

theorem convert_consistent (h : win.Consistent choice) (host : Convert.Host) (inflate : Inflate)
    (w : Workspace) (needed : Int) :
    (win.convert host inflate w needed).2.2 = none ∧
      (win.convert host inflate w needed).1.Consistent choice ∧
      (win.convert host inflate w needed).1.mfile = win.mfile := by
  rcases convert_cases h host inflate w needed with hrefused | ⟨p, m, -, -, hrun⟩
  · rw [hrefused]
    exact ⟨rfl, h.of_eq rfl rfl rfl rfl rfl rfl, rfl⟩
  · rw [hrun]
    generalize Convert.runOn host inflate w p.toString m.toString = outcome
    exact ⟨rfl, h.of_eq rfl rfl rfl rfl rfl rfl, rfl⟩

/-- What a step leaves of a content that it has changed: the status is green, or it is red and the
file holds a first part of what was to be stored. -/
def StoredBy (host : Convert.Host) (win : Window) (fs : Files) (q : Place) : Prop :=
  win.color = .green ∨
    win.color = .red ∧ ∃ content size halt, host.storing content = some (size, halt) ∧
      fs.content? q = some (content.take size)

/-- A content that converting changes is that of the source. -/
theorem changed_of_convert (h : win.Consistent choice) {host : Convert.Host} {inflate : Inflate}
    {w : Workspace} {needed : Int} {q : Place}
    (hq : (win.convert host inflate w needed).2.1.files.content? q ≠ w.files.content? q) :
    StoredBy host (win.convert host inflate w needed).1
        (win.convert host inflate w needed).2.1.files q ∧
      ∃ m, win.mfile = some m ∧
        (win.convert host inflate w needed).2.1.files.locate m.toString = .ok q := by
  rcases convert_cases h host inflate w needed with hrefused | ⟨p, m, -, hm, hrun⟩
  · rw [hrefused] at hq
    exact absurd rfl hq
  · rw [hrun] at hq ⊢
    dsimp only at hq
    obtain ⟨hlocate, hstored⟩ := Convert.changed_of_runOn hq
    -- the conversion reads the path from its text again
    rw [Path.ofString_toString (h.proper_mfile hm)] at hlocate
    generalize Convert.runOn host inflate w p.toString m.toString = outcome at hlocate hstored ⊢
    exact ⟨hstored.imp (fun hcode => if_pos hcode) fun hcut => ⟨if_neg hcut.1, hcut.2⟩, m, hm,
      hlocate⟩

/-- What is viewed is the source, if something stands there. -/
theorem view_eq_ok_some (h : win.Consistent choice) {fs : Files} {place : Place}
    (hview : win.view fs = .ok (some place)) :
    ∃ m, win.mfile = some m ∧ fs.exists? m.toString = .ok true ∧
      fs.locate m.toString = .ok place := by
  unfold view at hview
  cases hp : win.pfile with
  | none =>
      rw [hp] at hview
      cases hview
  | some p =>
      obtain ⟨m, hsuffix, hm⟩ := h.remembers.mfile_eq hp
      simp only [hp, hsuffix] at hview
      cases hexists : fs.exists? m.toString with
      | error e =>
          rw [hexists] at hview
          cases hview
      | ok found =>
          rw [hexists] at hview
          cases found with
          | false => cases hview
          | true =>
              refine ⟨m, hm, hexists, ?_⟩
              cases hlocate : fs.locate m.toString with
              | error e =>
                  rw [hlocate] at hview
                  cases hview
              | ok found =>
                  rw [hlocate] at hview
                  cases hview
                  rfl

/-- Viewing stops half way only where the source cannot be looked up at all. -/
theorem view_eq_error (h : win.Consistent choice) {fs : Files} {fault : Fault}
    (hview : win.view fs = .error fault) :
    ∃ m e, win.mfile = some m ∧ fs.exists? m.toString = .error e := by
  unfold view at hview
  cases hp : win.pfile with
  | none =>
      rw [hp] at hview
      cases hview
  | some p =>
      obtain ⟨m, hsuffix, hm⟩ := h.remembers.mfile_eq hp
      simp only [hp, hsuffix] at hview
      cases hexists : fs.exists? m.toString with
      | error e => exact ⟨m, e, hm, hexists⟩
      | ok found =>
          rw [hexists] at hview
          cases found with
          | false => cases hview
          | true => cases hview

end Window

/-! ## Sessions -/

namespace Session

open Window

/-- A step of a session: what the user does, the height that the window asks for in it, and what
happens outside. -/
abbrev Step := Action × Int × Convert.Host

/-- The session after some steps. -/
def after (inflate : Inflate) (s : Session) (steps : List Step) : Session :=
  steps.foldl (fun s step => (s.perform step.2.2 inflate step.1 step.2.1).1) s

theorem perform_convert (s : Session) (host : Convert.Host) (inflate : Inflate) (needed : Int) :
    (s.perform host inflate .convert needed).1 =
      ⟨(s.window.convert host inflate s.workspace needed).1,
        (s.window.convert host inflate s.workspace needed).2.1⟩ := rfl

theorem perform_consistent {s : Session} {choice : Option String}
    (h : s.window.Consistent choice) (host : Convert.Host) (inflate : Inflate) (action : Action)
    (needed : Int) :
    (s.perform host inflate action needed).1.window.Consistent (action.choice?.or choice) := by
  cases action with
  | select answer => exact (select_consistent h answer needed).2
  | convert => exact (convert_consistent h host inflate s.workspace needed).2.1
  | view =>
      unfold perform
      dsimp only
      split
      · exact h
      · exact h

/-- **The window remembers the latest choice**, and nothing else, after every session. -/
theorem after_consistent (inflate : Inflate) (w : Workspace) (steps : List Step) :
    (after inflate { workspace := w } steps).window.Consistent
      (latest (steps.map Prod.fst)) := by
  induction steps using List.reverseRecOn with
  | nil => exact consistent_empty
  | append_singleton steps step ih =>
      rw [after, List.foldl_append, List.map_append, List.map_singleton, latest_concat]
      exact perform_consistent ih step.2.2 inflate step.1 step.2.1

section Perform

variable {s : Session} {choice : Option String} {host : Convert.Host} {inflate : Inflate}
  {action : Action} {needed : Int}

/-- A step stops half way only when it is to view a source that cannot be looked up. -/
theorem fault_of_perform (h : s.window.Consistent choice) {fault : Fault}
    (hfault : (s.perform host inflate action needed).2.fault = some fault) :
    action = .view ∧
      ∃ m e, s.window.mfile = some m ∧ s.workspace.files.exists? m.toString = .error e := by
  cases action with
  | select answer =>
      change (s.window.select answer needed).2 = some fault at hfault
      rw [(select_consistent h answer needed).1] at hfault
      cases hfault
  | convert =>
      change (s.window.convert host inflate s.workspace needed).2.2 = some fault at hfault
      rw [(convert_consistent h host inflate s.workspace needed).1] at hfault
      cases hfault
  | view =>
      refine ⟨rfl, ?_⟩
      unfold perform at hfault
      dsimp only at hfault
      split at hfault
      · cases hfault
      · next hview => exact view_eq_error h hview

/-- Only converting changes the files, and then only the source. -/
theorem changed_of_perform (h : s.window.Consistent choice) {q : Place}
    (hq : (s.perform host inflate action needed).1.workspace.files.content? q ≠
      s.workspace.files.content? q) :
    action = .convert ∧
      StoredBy host (s.perform host inflate action needed).1.window
        (s.perform host inflate action needed).1.workspace.files q ∧
      ∃ m, (s.perform host inflate action needed).1.window.mfile = some m ∧
        (s.perform host inflate action needed).1.workspace.files.locate m.toString = .ok q := by
  cases action with
  | select answer => exact absurd rfl hq
  | convert =>
      change (s.window.convert host inflate s.workspace needed).2.1.files.content? q ≠ _ at hq
      obtain ⟨hstored, m, hm, hlocate⟩ := changed_of_convert h hq
      refine ⟨rfl, hstored, m, ?_, hlocate⟩
      rw [← hm]
      exact (convert_consistent h host inflate s.workspace needed).2.2
  | view =>
      unfold perform at hq
      dsimp only at hq
      split at hq
      · exact absurd rfl hq
      · exact absurd rfl hq

/-- Only viewing opens something, and then the source. -/
theorem opened_of_perform (h : s.window.Consistent choice) {place : Place}
    (hopened : (s.perform host inflate action needed).2.opened = some place) :
    action = .view ∧
      ∃ m, s.window.mfile = some m ∧ s.workspace.files.exists? m.toString = .ok true ∧
        s.workspace.files.locate m.toString = .ok place := by
  cases action with
  | select answer => cases hopened
  | convert => cases hopened
  | view =>
      refine ⟨rfl, ?_⟩
      unfold perform at hopened
      dsimp only at hopened
      split at hopened
      · next opened hview =>
          rw [show opened = some place from hopened] at hview
          exact view_eq_ok_some h hview
      · cases hopened

end Perform

end Session

end Pcode
