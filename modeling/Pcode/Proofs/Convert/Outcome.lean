import Pcode.Proofs.Convert.Reading
import Pcode.Proofs.Indent.Document

set_option autoImplicit false

/-! # How a conversion ends

A conversion finds a source or a verdict (`sourceIn`), and with a source the place to write it
(`destination`). Both depend on the files alone, and between them they fix the verdict of a
conversion that nothing outside stops; the open blocks only matter for the text that is written
(`laidOut`).

The ways in which a conversion can end are listed once (`Ends`): what is said of codes and
contents goes through the list, and nothing after `runOn_ends` and `run_of_source` unfolds a
conversion.

Main statement: which code a conversion ends with, and which contents it changes
(`runOn_code_exact`). A file that has been opened is empty until its content is stored, so a
conversion that is stopped in between has changed it (`full_device_empties_file`). -/

namespace Pcode

/-! ## The source in decompressed bytes -/

theorem NameTable.total_map_ofNat {sizes : List Nat} (h : sizes.length = groupCount) :
    total (sizes.map Int.ofNat) = sizes.sum := by
  have htake : (sizes.map Int.ofNat).take groupCount = sizes.map Int.ofNat :=
    List.take_of_length_le (by rw [List.length_map, h])
  have hnat : Int.toNat ∘ Int.ofNat = id := rfl
  rw [total, htake, List.map_map, hnat, List.map_id]

theorem Container.headerSize_le_of_ofBytes? {bytes : List UInt8} {c : Container}
    (h : ofBytes? bytes = some c) : headerSize ≤ bytes.length := by
  unfold ofBytes? at h
  split at h
  · cases h
  · next hlong => exact Nat.not_lt.1 hlong

namespace Program

/-- What it takes for decompressed bytes to hold a source: as many zero bytes after the sizes as
there are names, and code that refers to these names only. -/
def Holds (plain : List UInt8) (source : List Char) : Prop :=
  (sizesOf plain).sum ≤ (plain.drop sizesLength).count 0 ∧
    ∃ parts, Bytecode.decode (NameTable.namesIn (sizesOf plain).sum (plain.drop sizesLength))
        (NameTable.afterNames (sizesOf plain).sum (plain.drop sizesLength)) = .ok parts ∧
      parts.flatten = source

theorem source_ofBytes_eq_ok_iff {plain : List UInt8} {source : List Char} :
    (ofBytes plain).source = .ok source ↔ Holds plain source := by
  have hlength : (sizesOf plain).length = NameTable.groupCount := by simp [sizesOf]
  have hsizes : NameTable.groupCount ≤ ((sizesOf plain).map Int.ofNat).length := by
    rw [List.length_map, hlength]
  unfold Program.source sourceOf ofBytes Holds
  simp only [NameTable.read_eq hsizes, NameTable.total_map_ofNat hlength]
  by_cases hcount : (sizesOf plain).sum ≤ (plain.drop sizesLength).count 0
  · rw [if_pos hcount]
    simp only [hcount, true_and]
    cases Bytecode.decode (NameTable.namesIn (sizesOf plain).sum (plain.drop sizesLength))
        (NameTable.afterNames (sizesOf plain).sum (plain.drop sizesLength)) with
    | error e => simp
    | ok parts => simp
  · rw [if_neg hcount]
    simp [hcount]

end Program

namespace Convert

/-! ## The source in a file -/

/-- The source in the file at a path, or the verdict that ends the conversion before anything is
written. -/
def sourceIn (inflate : Inflate) (fs : Files) (pfile : String) : Except Verdict (List Char) :=
  match readContainer fs pfile with
  | .error e => .error (.failed e)
  | .ok c =>
      if !c.isValid then .error .invalid
      else
        match sourceOf inflate c with
        | .error e => .error (.failed e)
        | .ok source => .ok source

/-- What it takes for a file to hold a source: a complete header that fits the payload, and a
payload that decompresses to enough bytes, which hold the source. -/
def SourceAt (inflate : Inflate) (fs : Files) (pfile : String) (source : List Char) : Prop :=
  ∃ bytes c plain, fs.read (Path.ofString pfile).toString = .ok bytes ∧
    Container.ofBytes? bytes = some c ∧ c.isValid = true ∧
    inflate (Scramble.descramble c.key c.payload) = some plain ∧ c.plainSize ≤ plain.length ∧
    Program.Holds plain source

theorem sourceOf_eq_ok_iff {inflate : Inflate} {c : Container} {source : List Char} :
    sourceOf inflate c = .ok source ↔
      ∃ plain, inflate (Scramble.descramble c.key c.payload) = some plain ∧
        c.plainSize ≤ plain.length ∧ Program.Holds plain source := by
  unfold sourceOf Container.program?
  cases inflate (Scramble.descramble c.key c.payload) with
  | none => simp
  | some plain =>
      by_cases hshort : plain.length < c.plainSize
      · simp [hshort, Nat.not_le.2 hshort]
      · simp only [hshort, if_false, Option.some.injEq, exists_eq_left', Nat.not_lt.1 hshort,
          true_and]
        rw [← Program.source_ofBytes_eq_ok_iff]
        cases (Program.ofBytes plain).source with
        | error e => simp
        | ok text => simp

theorem sourceIn_eq_ok_iff {inflate : Inflate} {fs : Files} {pfile : String}
    {source : List Char} :
    sourceIn inflate fs pfile = .ok source ↔ SourceAt inflate fs pfile source := by
  constructor
  · intro h
    unfold sourceIn at h
    split at h
    · cases h
    · next c hread =>
        obtain ⟨bytes, hbytes, hc⟩ := readContainer_eq_ok_iff.1 hread
        split at h
        · cases h
        · next hvalid =>
            split at h
            · cases h
            · next text htext =>
                cases h
                obtain ⟨plain, hplain, hsize, hholds⟩ := sourceOf_eq_ok_iff.1 htext
                exact ⟨bytes, c, plain, hbytes, hc, by simpa using hvalid, hplain, hsize, hholds⟩
  · rintro ⟨bytes, c, plain, hbytes, hc, hvalid, hplain, hsize, hholds⟩
    have hread : readContainer fs pfile = .ok c := readContainer_eq_ok_iff.2 ⟨bytes, hbytes, hc⟩
    have hsource : sourceOf inflate c = .ok source :=
      sourceOf_eq_ok_iff.2 ⟨plain, hplain, hsize, hholds⟩
    unfold sourceIn
    simp only [hread, hvalid, hsource]
    rfl

/-- A verdict without a source is a failure, but for a complete header that does not fit. -/
theorem sourceIn_eq_error {inflate : Inflate} {fs : Files} {pfile : String} {v : Verdict}
    (h : sourceIn inflate fs pfile = .error v) :
    (v = .invalid ∧ ∃ c, readContainer fs pfile = .ok c ∧ c.isValid = false) ∨
      (v.code = 1 ∧ ∀ c, readContainer fs pfile = .ok c → c.isValid = true) := by
  unfold sourceIn at h
  split at h
  · next e hread =>
      cases h
      exact .inr ⟨rfl, fun c hc => by rw [hread] at hc; cases hc⟩
  · next c hread =>
      split at h
      · next hvalid =>
          cases h
          exact .inl ⟨rfl, c, hread, by simpa using hvalid⟩
      · next hvalid =>
          split at h
          · cases h
            refine .inr ⟨rfl, fun d hd => ?_⟩
            rw [hread] at hd
            cases hd
            simpa using hvalid
          · cases h

/-! ## The place of the written source -/

/-- The folders above a path are made, and then it is seen where a file can be written; the files
are given with the folders that were made. -/
def destination (fs : Files) (mfile : String) : Files × Except FileError Place :=
  let p := Path.ofString mfile
  match fs.ensureFolders p.root p.parent.names.reverse with
  | (fs, .error e) => (fs, .error e)
  | (fs, .ok _) => (fs, fs.target p.toString)

/-- Whether a file can be created and written at a path. -/
def CanWrite (fs : Files) (mfile : String) : Prop := ∃ place, (destination fs mfile).2 = .ok place

theorem content?_destination (fs : Files) (mfile : String) (q : Place) :
    (destination fs mfile).1.content? q = fs.content? q := by
  rw [← fs.content?_ensureFolders (Path.ofString mfile).root
    (Path.ofString mfile).parent.names.reverse q]
  unfold destination
  dsimp only
  split
  · next h => rw [h]
  · next h => rw [h]

theorem destination_eq_ok {fs : Files} {mfile : String} {place : Place}
    (h : (destination fs mfile).2 = .ok place) :
    (destination fs mfile).1.locate (Path.ofString mfile).toString = .ok place ∧
      (destination fs mfile).1.get? place ≠ some .folder := by
  unfold destination at h ⊢
  dsimp only at h ⊢
  generalize fs.ensureFolders (Path.ofString mfile).root
    (Path.ofString mfile).parent.names.reverse = folders at h ⊢
  rcases folders with ⟨made, e | _⟩
  · cases h
  · exact Files.target_eq_ok h

/-! ## What is written -/

/-- The text a source is written as while the given blocks are open. -/
def laidOut (blocks : Indent.Blocks) (source : List Char) : Except Indent.Error (List Char) :=
  (Indent.State.layText style { blocks := blocks } source 1 none).2

/-- Every source can be laid out. -/
theorem laidOut_ok (blocks : Indent.Blocks) (source : List Char) :
    ∃ text, laidOut blocks source = .ok text := by
  have hstyle : style.Proper := Indent.Style.proper_ofInt (by decide) true 1
  obtain ⟨out, hout, -, -⟩ :=
    Indent.State.layText_ok hstyle { blocks := blocks } source 1 none
  exact ⟨_, hout⟩

theorem layOut_of_layingOut {host : Host} {source : List Char} (h : host.layingOut source = none)
    {blocks : Indent.Blocks} {text : List Char} (htext : laidOut blocks source = .ok text) :
    layOut host blocks source =
      ((Indent.State.layText style { blocks := blocks } source 1 none).1, .ok text) := by
  unfold laidOut at htext
  unfold layOut
  rw [h]
  generalize Indent.State.layText style { blocks := blocks } source 1 none = laid at htext ⊢
  obtain ⟨st, result⟩ := laid
  obtain rfl : result = .ok text := htext
  rfl

/-- Writing depends on the open blocks only through the text. -/
theorem writeSource_eq (w : Workspace) (mfile : String) {source text : List Char}
    (htext : laidOut w.blocks source = .ok text) :
    ((writeSource {} w mfile source).1.files, (writeSource {} w mfile source).2) =
      match destination w.files mfile with
      | (fs, .error e) => (fs, .error (.file e))
      | (fs, .ok place) => (fs.put place (.file (Utf8.encode text)), .ok ()) := by
  have hlaid : layOut {} w.blocks source = (_, .ok text) := layOut_of_layingOut rfl htext
  unfold writeSource destination
  dsimp only
  rcases w.files.ensureFolders (Path.ofString mfile).root
    (Path.ofString mfile).parent.names.reverse with ⟨fs, e | _⟩
  · rfl
  · simp only [hlaid, writeFile, Files.create_eq]
    cases fs.target (Path.ofString mfile).toString with
    | error e => rfl
    | ok place => simp only [Except.map, Files.put_put]

/-- What it takes for the file of a source to be opened: nothing stops the steps until then, and a
file can be created and written at the path. -/
structure Opens (host : Host) (fs : Files) (mfile : String) (source : List Char) : Prop where
  makingFolders : host.makingFolders = none
  layingOut : host.layingOut source = none
  opening : host.opening = none
  canWrite : CanWrite fs mfile

/-- Once the file can be opened, what is left is to store the text. -/
theorem writeSource_of_opens {host : Host} {w : Workspace} {mfile : String}
    {source text : List Char} {place : Place} (h : Opens host w.files mfile source)
    (hplace : (destination w.files mfile).2 = .ok place)
    (htext : laidOut w.blocks source = .ok text) :
    ((writeSource host w mfile source).1.files, (writeSource host w mfile source).2) =
      match host.storing (Utf8.encode text) with
      | some (size, halt) =>
          ((destination w.files mfile).1.put place (.file ((Utf8.encode text).take size)),
            .error (.halted halt))
      | none => ((destination w.files mfile).1.put place (.file (Utf8.encode text)), .ok ()) := by
  have hlaid := layOut_of_layingOut h.layingOut htext
  unfold destination at hplace ⊢
  unfold writeSource
  dsimp only at hplace ⊢
  rw [h.makingFolders]
  generalize w.files.ensureFolders (Path.ofString mfile).root
    (Path.ofString mfile).parent.names.reverse = folders at hplace ⊢
  rcases folders with ⟨fs, e | _⟩
  · cases hplace
  · simp only at hplace
    simp only [hlaid, writeFile, h.opening, Files.create_eq, hplace, Except.map]
    cases host.storing (Utf8.encode text) with
    | none => simp only [Files.put_put]
    | some cut => simp only [Files.put_put]

/-- A file that is not opened leaves every content as it is, and the writing fails. -/
theorem writeSource_of_not_opens {host : Host} {w : Workspace} {mfile : String}
    {source : List Char} (h : ¬Opens host w.files mfile source) :
    (∀ q, (writeSource host w mfile source).1.files.content? q = w.files.content? q) ∧
      ∃ e, (writeSource host w mfile source).2 = .error e := by
  have hkeep := w.files.content?_ensureFolders (Path.ofString mfile).root
    (Path.ofString mfile).parent.names.reverse
  have hcan : ∀ place, (destination w.files mfile).2 = .ok place → CanWrite w.files mfile :=
    fun place hplace => ⟨place, hplace⟩
  unfold destination at hcan
  unfold writeSource
  dsimp only at hcan ⊢
  cases hfolders : host.makingFolders with
  | some halt => exact ⟨fun q => rfl, _, rfl⟩
  | none =>
      generalize w.files.ensureFolders (Path.ofString mfile).root
        (Path.ofString mfile).parent.names.reverse = folders at hkeep hcan ⊢
      rcases folders with ⟨fs, e | _⟩
      · exact ⟨hkeep, _, rfl⟩
      · cases hlay : host.layingOut source with
        | some stop =>
            obtain ⟨lines, halt⟩ := stop
            simp only [layOut, hlay]
            exact ⟨hkeep, _, rfl⟩
        | none =>
            obtain ⟨text, htext⟩ := laidOut_ok w.blocks source
            simp only [layOut_of_layingOut hlay htext, writeFile]
            cases hopening : host.opening with
            | some halt => exact ⟨hkeep, _, rfl⟩
            | none =>
                simp only at hcan
                rw [Files.create_eq]
                cases htarget : fs.target (Path.ofString mfile).toString with
                | error e => exact ⟨hkeep, _, rfl⟩
                | ok place => exact absurd ⟨hfolders, hlay, hopening, hcan place htarget⟩ h

/-! ## Conversions -/

theorem runOn_eq {host : Host} (hreading : host.reading = none) {inflate : Inflate}
    {w : Workspace} {pfile mfile : String} : runOn host inflate w pfile mfile =
    match sourceIn inflate w.files pfile with
    | .error v => (w, v)
    | .ok source =>
        match writeSource host w mfile source with
        | (w, .error e) => (w, .failed e)
        | (w, .ok _) => (w, .saved mfile) := by
  unfold runOn sourceIn
  rw [hreading]
  cases readContainer w.files pfile with
  | error e => rfl
  | ok c =>
      cases hvalid : c.isValid with
      | false => simp only [hvalid]; rfl
      | true =>
          simp only [hvalid]
          cases sourceOf inflate c with
          | error e => rfl
          | ok source => rfl

/-- Once the file can be opened, the conversion comes to storing the text. -/
theorem runOn_of_opens {host : Host} {inflate : Inflate} {w : Workspace} {pfile mfile : String}
    {source text : List Char} {place : Place} (hreading : host.reading = none)
    (hsource : sourceIn inflate w.files pfile = .ok source)
    (hopens : Opens host w.files mfile source)
    (hplace : (destination w.files mfile).2 = .ok place)
    (htext : laidOut w.blocks source = .ok text) :
    ((runOn host inflate w pfile mfile).1.files, (runOn host inflate w pfile mfile).2) =
      match host.storing (Utf8.encode text) with
      | some (size, halt) =>
          ((destination w.files mfile).1.put place (.file ((Utf8.encode text).take size)),
            .failed (.halted halt))
      | none =>
          ((destination w.files mfile).1.put place (.file (Utf8.encode text)), .saved mfile) := by
  have hwrite := writeSource_of_opens hopens hplace htext
  rw [runOn_eq hreading, hsource]
  simp only
  generalize writeSource host w mfile source = written at hwrite ⊢
  obtain ⟨w', result⟩ := written
  cases hstoring : host.storing (Utf8.encode text) with
  | none =>
      rw [hstoring] at hwrite
      obtain ⟨hfiles, rfl⟩ := Prod.mk.inj hwrite
      exact congrArg (·, Verdict.saved mfile) hfiles
  | some stop =>
      rw [hstoring] at hwrite
      obtain ⟨hfiles, rfl⟩ := Prod.mk.inj hwrite
      exact congrArg (·, Verdict.failed (.halted stop.2)) hfiles

/-- How a conversion ends, by the files it leaves and its verdict. -/
inductive Ends (host : Host) (inflate : Inflate) (w : Workspace) (pfile mfile : String) :
    Files → Verdict → Prop
  /-- it is stopped while it reads -/
  | unread {halt : Halt} (hreading : host.reading = some halt) :
      Ends host inflate w pfile mfile w.files (.failed (.halted halt))
  /-- there is no source to write -/
  | noSource {v : Verdict} (hreading : host.reading = none)
      (hsource : sourceIn inflate w.files pfile = .error v) :
      Ends host inflate w pfile mfile w.files v
  /-- the file for the source is not opened -/
  | unopened {source : List Char} {fs : Files} {e : Error} (hreading : host.reading = none)
      (hsource : sourceIn inflate w.files pfile = .ok source)
      (hopens : ¬Opens host w.files mfile source)
      (hkeep : ∀ q, fs.content? q = w.files.content? q) :
      Ends host inflate w pfile mfile fs (.failed e)
  /-- the text is stored in part -/
  | cut {source text : List Char} {place : Place} {size : Nat} {halt : Halt}
      (hreading : host.reading = none) (hsource : sourceIn inflate w.files pfile = .ok source)
      (hopens : Opens host w.files mfile source)
      (hplace : (destination w.files mfile).2 = .ok place)
      (htext : laidOut w.blocks source = .ok text)
      (hstoring : host.storing (Utf8.encode text) = some (size, halt)) :
      Ends host inflate w pfile mfile
        ((destination w.files mfile).1.put place (.file ((Utf8.encode text).take size)))
        (.failed (.halted halt))
  /-- all of the text is stored -/
  | saved {source text : List Char} {place : Place} (hreading : host.reading = none)
      (hsource : sourceIn inflate w.files pfile = .ok source)
      (hopens : Opens host w.files mfile source)
      (hplace : (destination w.files mfile).2 = .ok place)
      (htext : laidOut w.blocks source = .ok text)
      (hstoring : host.storing (Utf8.encode text) = none) :
      Ends host inflate w pfile mfile
        ((destination w.files mfile).1.put place (.file (Utf8.encode text))) (.saved mfile)

/-- **Every conversion ends in one of these ways.** -/
theorem runOn_ends (host : Host) (inflate : Inflate) (w : Workspace) (pfile mfile : String) :
    Ends host inflate w pfile mfile (runOn host inflate w pfile mfile).1.files
      (runOn host inflate w pfile mfile).2 := by
  cases hreading : host.reading with
  | some halt =>
      unfold runOn
      rw [hreading]
      exact .unread hreading
  | none =>
      cases hsource : sourceIn inflate w.files pfile with
      | error v =>
          rw [runOn_eq hreading, hsource]
          exact .noSource hreading hsource
      | ok source =>
          by_cases hopens : Opens host w.files mfile source
          · obtain ⟨place, hplace⟩ := hopens.canWrite
            obtain ⟨text, htext⟩ := laidOut_ok w.blocks source
            have hrun := runOn_of_opens hreading hsource hopens hplace htext
            cases hstoring : host.storing (Utf8.encode text) with
            | none =>
                rw [hstoring] at hrun
                obtain ⟨hfiles, hverdict⟩ := Prod.mk.inj hrun
                rw [hfiles, hverdict]
                exact .saved hreading hsource hopens hplace htext hstoring
            | some stop =>
                rw [hstoring] at hrun
                obtain ⟨hfiles, hverdict⟩ := Prod.mk.inj hrun
                rw [hfiles, hverdict]
                exact .cut hreading hsource hopens hplace htext hstoring
          · obtain ⟨hkeep, e, he⟩ := writeSource_of_not_opens hopens
            rw [runOn_eq hreading, hsource]
            simp only
            generalize writeSource host w mfile source = written at hkeep he ⊢
            obtain ⟨w', result⟩ := written
            obtain rfl : result = .error e := he
            exact .unopened hreading hsource hopens hkeep

/-! ## Conversions that nothing stops -/

section Run

variable {inflate : Inflate} {w : Workspace} {pfile : String} (mfile : String)

/-- Without a source, nothing is done. -/
theorem run_of_verdict {v : Verdict} (hsource : sourceIn inflate w.files pfile = .error v) :
    run inflate w pfile mfile = (w, v) := by
  rw [run, runOn_eq rfl, hsource]

/-- With a source, the files and the verdict follow from the place to write and the text; without
such a place, folders may have been made. -/
theorem run_of_source {source text : List Char}
    (hsource : sourceIn inflate w.files pfile = .ok source)
    (htext : laidOut w.blocks source = .ok text) :
    ((run inflate w pfile mfile).1.files, (run inflate w pfile mfile).2) =
      match destination w.files mfile with
      | (fs, .error e) => (fs, .failed (.file e))
      | (fs, .ok place) => (fs.put place (.file (Utf8.encode text)), .saved mfile) := by
  have hwrite := writeSource_eq w mfile htext
  rw [run, runOn_eq rfl, hsource]
  simp only
  generalize writeSource {} w mfile source = written at hwrite ⊢
  generalize destination w.files mfile = dest at hwrite ⊢
  obtain ⟨w', result⟩ := written
  rcases dest with ⟨fs, e | place⟩
  · obtain ⟨rfl, rfl⟩ := Prod.mk.inj hwrite
    rfl
  · obtain ⟨hfiles, rfl⟩ := Prod.mk.inj hwrite
    exact congrArg (·, Verdict.saved mfile) hfiles

/-- With a source and a place, the source is laid out and written there. -/
theorem run_of_place {source text : List Char} {place : Place}
    (hsource : sourceIn inflate w.files pfile = .ok source)
    (hplace : (destination w.files mfile).2 = .ok place)
    (htext : laidOut w.blocks source = .ok text) :
    (run inflate w pfile mfile).1.files =
      (destination w.files mfile).1.put place (.file (Utf8.encode text)) := by
  have hrun := run_of_source mfile hsource htext
  generalize destination w.files mfile = dest at hplace hrun ⊢
  obtain ⟨fs, found⟩ := dest
  obtain rfl : found = .ok place := hplace
  exact (Prod.mk.inj hrun).1

/-- What was written is read back. -/
theorem read_run_of_place {source text : List Char} {place : Place}
    (hsource : sourceIn inflate w.files pfile = .ok source)
    (hplace : (destination w.files mfile).2 = .ok place)
    (htext : laidOut w.blocks source = .ok text) :
    (run inflate w pfile mfile).1.files.read (Path.ofString mfile).toString =
      .ok (Utf8.encode text) := by
  obtain ⟨hlocate, hnode⟩ := destination_eq_ok hplace
  rw [run_of_place mfile hsource hplace htext, Files.read_put_file hlocate hnode]

end Run

/-! ## Codes -/

section Codes

variable {host : Host} {inflate : Inflate} {w : Workspace} {pfile mfile : String} {fs : Files}
  {v : Verdict}

theorem Ends.code_le_two (h : Ends host inflate w pfile mfile fs v) : v.code ≤ 2 := by
  cases v with
  | saved path => exact Nat.zero_le 2
  | failed e => exact Nat.le_succ 1
  | invalid => exact Nat.le_refl 2

theorem Ends.code_eq_two_iff (h : Ends host inflate w pfile mfile fs v) :
    v.code = 2 ↔ host.reading = none ∧
      ∃ c, readContainer w.files pfile = .ok c ∧ c.isValid = false := by
  -- with a source the header fits, so that the right side is false
  have hvalid : ∀ source, sourceIn inflate w.files pfile = .ok source →
      ¬∃ c, readContainer w.files pfile = .ok c ∧ c.isValid = false := by
    rintro source hsource ⟨c, hread, hinvalid⟩
    obtain ⟨bytes, d, -, hbytes, hd, hvalid, -⟩ := sourceIn_eq_ok_iff.1 hsource
    rw [readContainer_eq_ok_iff.2 ⟨bytes, hbytes, hd⟩] at hread
    cases hread
    rw [hvalid] at hinvalid
    cases hinvalid
  cases h with
  | unread hreading => simp [Verdict.code, hreading]
  | noSource hreading hsource =>
      rcases sourceIn_eq_error hsource with ⟨rfl, hinvalid⟩ | ⟨hcode, hvalid⟩
      · exact ⟨fun _ => ⟨hreading, hinvalid⟩, fun _ => rfl⟩
      · rw [hcode]
        refine ⟨fun h => absurd h (by decide), ?_⟩
        rintro ⟨-, c, hread, hinvalid⟩
        rw [hvalid c hread] at hinvalid
        cases hinvalid
  | unopened hreading hsource hopens hkeep =>
      exact ⟨fun h => (by cases h), fun h => absurd h.2 (hvalid _ hsource)⟩
  | cut hreading hsource hopens hplace htext hstoring =>
      exact ⟨fun h => (by cases h), fun h => absurd h.2 (hvalid _ hsource)⟩
  | saved hreading hsource hopens hplace htext hstoring =>
      exact ⟨fun h => (by cases h), fun h => absurd h.2 (hvalid _ hsource)⟩

/-- What it takes for a conversion to succeed: it is not stopped while it reads, the file holds a
source, the file for the source is opened, and all of the text is stored. -/
def Succeeds (host : Host) (inflate : Inflate) (w : Workspace) (pfile mfile : String) : Prop :=
  host.reading = none ∧ ∃ source text, SourceAt inflate w.files pfile source ∧
    laidOut w.blocks source = .ok text ∧ Opens host w.files mfile source ∧
    host.storing (Utf8.encode text) = none

theorem Ends.code_eq_zero_iff (h : Ends host inflate w pfile mfile fs v) :
    v.code = 0 ↔ Succeeds host inflate w pfile mfile := by
  -- there is but one source, and one text
  have hunique : ∀ source, sourceIn inflate w.files pfile = .ok source →
      ∀ source', SourceAt inflate w.files pfile source' → source' = source := by
    intro source hsource source' hat
    rw [sourceIn_eq_ok_iff.2 hat] at hsource
    exact Except.ok.inj hsource
  cases h with
  | unread hreading =>
      refine ⟨fun h => (by cases h), fun h => ?_⟩
      rw [h.1] at hreading
      cases hreading
  | noSource hreading hsource =>
      have hcode : v.code ≠ 0 := by
        rcases sourceIn_eq_error hsource with ⟨rfl, -⟩ | ⟨hone, -⟩
        · decide
        · omega
      refine ⟨fun h => absurd h hcode, ?_⟩
      rintro ⟨-, source, text, hat, -⟩
      rw [sourceIn_eq_ok_iff.2 hat] at hsource
      cases hsource
  | unopened hreading hsource hopens hkeep =>
      refine ⟨fun h => (by cases h), ?_⟩
      rintro ⟨-, source, text, hat, -, hopens', -⟩
      obtain rfl := hunique _ hsource _ hat
      exact absurd hopens' hopens
  | cut hreading hsource hopens hplace htext hstoring =>
      refine ⟨fun h => (by cases h), ?_⟩
      rintro ⟨-, source, text, hat, htext', -, hstoring'⟩
      obtain rfl := hunique _ hsource _ hat
      rw [htext] at htext'
      cases htext'
      rw [hstoring] at hstoring'
      cases hstoring'
  | saved hreading hsource hopens hplace htext hstoring =>
      exact ⟨fun _ => ⟨hreading, _, _, sourceIn_eq_ok_iff.1 hsource, htext, hopens, hstoring⟩,
        fun _ => rfl⟩

/-! ## Contents -/

/-- What a file holds after a conversion, and that no other content has changed. -/
def Holds (w : Workspace) (mfile : String) (fs : Files) (content : List UInt8) : Prop :=
  ∃ place, fs.locate (Path.ofString mfile).toString = .ok place ∧
    fs.content? place = some content ∧ ∀ q, q ≠ place → fs.content? q = w.files.content? q

theorem holds_put {place : Place} (hplace : (destination w.files mfile).2 = .ok place)
    (content : List UInt8) :
    Holds w mfile ((destination w.files mfile).1.put place (.file content)) content := by
  obtain ⟨hlocate, hnode⟩ := destination_eq_ok hplace
  refine ⟨place, Files.locate_put hnode hlocate, Files.content?_put_file hnode, fun q hq => ?_⟩
  rw [← content?_destination w.files mfile q]
  exact Files.content?_eq_of_get?_eq (Files.get?_put_of_ne hq)

/-- What it takes for a conversion to be stopped while it stores its text: until then all is as for
one that succeeds. -/
def StopsStoring (host : Host) (inflate : Inflate) (w : Workspace) (pfile mfile : String)
    (text : List Char) (size : Nat) : Prop :=
  host.reading = none ∧ ∃ source halt, SourceAt inflate w.files pfile source ∧
    laidOut w.blocks source = .ok text ∧ Opens host w.files mfile source ∧
    host.storing (Utf8.encode text) = some (size, halt)

theorem Ends.holds_of_code_eq_zero (h : Ends host inflate w pfile mfile fs v)
    (hcode : v.code = 0) :
    ∃ source text, SourceAt inflate w.files pfile source ∧ laidOut w.blocks source = .ok text ∧
      Holds w mfile fs (Utf8.encode text) := by
  cases h with
  | unread hreading => cases hcode
  | noSource hreading hsource =>
      rcases sourceIn_eq_error hsource with ⟨rfl, -⟩ | ⟨hone, -⟩
      · cases hcode
      · omega
  | unopened hreading hsource hopens hkeep => cases hcode
  | cut hreading hsource hopens hplace htext hstoring => cases hcode
  | saved hreading hsource hopens hplace htext hstoring =>
      exact ⟨_, _, sourceIn_eq_ok_iff.1 hsource, htext, holds_put hplace _⟩

/-- A conversion that does not succeed leaves every content as it is, unless it is stopped while it
stores its text. -/
theorem Ends.contents_of_code_ne_zero (h : Ends host inflate w pfile mfile fs v)
    (hcode : v.code ≠ 0) :
    (∀ q, fs.content? q = w.files.content? q) ∨
      ∃ text size, StopsStoring host inflate w pfile mfile text size ∧
        Holds w mfile fs ((Utf8.encode text).take size) := by
  cases h with
  | unread hreading => exact .inl fun q => rfl
  | noSource hreading hsource => exact .inl fun q => rfl
  | unopened hreading hsource hopens hkeep => exact .inl hkeep
  | cut hreading hsource hopens hplace htext hstoring =>
      exact .inr ⟨_, _, ⟨hreading, _, _, sourceIn_eq_ok_iff.1 hsource, htext, hopens, hstoring⟩,
        holds_put hplace _⟩
  | saved hreading hsource hopens hplace htext hstoring => exact absurd rfl hcode

end Codes

/-- **A conversion always ends with a code, and the code says exactly what happened.** Whatever
happens outside, the code is zero, one or two. It is two for a file with a complete header that does
not fit, if the reading is not stopped; it is zero if nothing stops the conversion, the file holds a
source, and the path can be written; all else is code one. After code zero the source, laid out with
the blocks that were open, is the content of the written file, and no other content has changed.
After any other code no content has changed, unless the file had been opened and its text was not
stored to the end: then it holds a first part of the text, and no other content has changed. -/
theorem runOn_code_exact (host : Host) (inflate : Inflate) (w : Workspace)
    (pfile mfile : String) :
    let fs := (runOn host inflate w pfile mfile).1.files
    let code := (runOn host inflate w pfile mfile).2.code
    (code = 0 ∨ code = 1 ∨ code = 2) ∧
      (code = 2 ↔ host.reading = none ∧
        ∃ bytes c, w.files.read (Path.ofString pfile).toString = .ok bytes ∧
          Container.headerSize ≤ bytes.length ∧ Container.ofBytes? bytes = some c ∧
          c.isValid = false) ∧
      (code = 0 ↔ Succeeds host inflate w pfile mfile) ∧
      (code = 0 → ∃ source text, SourceAt inflate w.files pfile source ∧
        laidOut w.blocks source = .ok text ∧ Holds w mfile fs (Utf8.encode text)) ∧
      (code ≠ 0 → (∀ q, fs.content? q = w.files.content? q) ∨
        ∃ text size, StopsStoring host inflate w pfile mfile text size ∧
          Holds w mfile fs ((Utf8.encode text).take size)) := by
  intro fs code
  have hends := runOn_ends host inflate w pfile mfile
  refine ⟨?_, hends.code_eq_two_iff.trans ?_, hends.code_eq_zero_iff,
    hends.holds_of_code_eq_zero, hends.contents_of_code_ne_zero⟩
  · have hle : code ≤ 2 := hends.code_le_two
    omega
  · refine and_congr_right fun _ => ⟨?_, ?_⟩
    · rintro ⟨c, hread, hinvalid⟩
      obtain ⟨bytes, hbytes, hc⟩ := readContainer_eq_ok_iff.1 hread
      exact ⟨bytes, c, hbytes, Container.headerSize_le_of_ofBytes? hc, hc, hinvalid⟩
    · rintro ⟨bytes, c, hbytes, -, hc, hinvalid⟩
      exact ⟨c, readContainer_eq_ok_iff.2 ⟨bytes, hbytes, hc⟩, hinvalid⟩

/-- A device that has no room at all. -/
def fullDevice : Host where
  storing _ := some (0, .file ⟨.noSpace, ""⟩)

/-- A stack that does not suffice for the first line. -/
def smallStack : Host where
  layingOut _ := some (0, .tooDeep)

/-- The sample container, and a file where its source goes. -/
def sampleWorkspace : Workspace where
  files := sampleFiles.put ["a.m"] (.file [0x78])

theorem sourceIn_sampleWorkspace :
    sourceIn Zlib.inflate sampleWorkspace.files "a.p" = .ok "é if x1 =x1\n".toList := by
  decide +kernel

theorem destination_sampleWorkspace :
    (destination sampleWorkspace.files "a.m").2 = .ok ["a.m"] := by
  decide +kernel

/-- The file is opened, and nothing is stored in it. -/
theorem runOn_fullDevice :
    (runOn fullDevice Zlib.inflate sampleWorkspace "a.p" "a.m").1.files.content? ["a.m"] = some [] ∧
      (runOn fullDevice Zlib.inflate sampleWorkspace "a.p" "a.m").2 =
        .failed (.halted (.file ⟨.noSpace, ""⟩)) := by
  obtain ⟨text, htext⟩ := laidOut_ok sampleWorkspace.blocks "é if x1 =x1\n".toList
  have hplace := destination_sampleWorkspace
  have hopens : Opens fullDevice sampleWorkspace.files "a.m" "é if x1 =x1\n".toList :=
    ⟨rfl, rfl, rfl, _, hplace⟩
  have hrun := runOn_of_opens rfl sourceIn_sampleWorkspace hopens hplace htext
  obtain ⟨hfiles, hverdict⟩ := Prod.mk.inj hrun
  rw [hfiles, hverdict]
  exact ⟨Files.content?_put_file (destination_eq_ok hplace).2, rfl⟩

/-- **A full device empties a file.** The conversion ends with code one, and the file, which held a
byte, holds none any more. With a stack that is too small the code is one, although the file holds a
source and the path can be written. -/
theorem full_device_empties_file :
    ((runOn fullDevice Zlib.inflate sampleWorkspace "a.p" "a.m").2.code = 1 ∧
      sampleWorkspace.files.content? ["a.m"] = some [0x78] ∧
      (runOn fullDevice Zlib.inflate sampleWorkspace "a.p" "a.m").1.files.content? ["a.m"] =
        some []) ∧
    (runOn smallStack Zlib.inflate sampleWorkspace "a.p" "a.m").2.code = 1 ∧
      (∃ source, SourceAt Zlib.inflate sampleWorkspace.files "a.p" source) ∧
      CanWrite sampleWorkspace.files "a.m" := by
  obtain ⟨hcontent, hverdict⟩ := runOn_fullDevice
  refine ⟨⟨?_, by decide +kernel, hcontent⟩, by decide +kernel,
    ⟨_, sourceIn_eq_ok_iff.1 sourceIn_sampleWorkspace⟩, _, destination_sampleWorkspace⟩
  rw [hverdict]
  rfl

end Convert

end Pcode
