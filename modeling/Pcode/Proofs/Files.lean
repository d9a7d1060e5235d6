import Pcode.Files.Basic

set_option autoImplicit false

/-! # What operations on files leave as it is

The view of the files that matters is the content at each place (`Files.content?`): folders may
come and go in it. Making folders leaves every content as it is (`content?_ensureFolders`),
and opening a file to write it changes the content at one place, the one its path leads to before
and after (`create_eq`, `content?_put_file`, `read_put_file`).

A folder is made only where nothing stands and a file is written only where no folder stands,
so no lookup of a path that succeeded before comes out differently (`locate_put`). -/

namespace Pcode.Files

/-! ## Lookups -/

/-- The content of the file at a place. -/
def content? (fs : Files) (place : Place) : Option (List UInt8) :=
  match fs.get? place with
  | some (.file content) => some content
  | _ => none

theorem lookup_filter_ne {place q : Place} (hq : q ≠ place) (nodes : List (Place × Node)) :
    (nodes.filter (·.1 != place)).lookup q = nodes.lookup q := by
  induction nodes with
  | nil => rfl
  | cons entry nodes ih =>
      obtain ⟨p, node⟩ := entry
      by_cases hp : p = place
      · have hne : (q == p) = false := by simpa [hp] using hq
        rw [List.filter_cons_of_neg (by simp [hp]), ih, List.lookup_cons, hne]
      · rw [List.filter_cons_of_pos (by simp [hp]), List.lookup_cons, List.lookup_cons, ih]

theorem get?_put_of_ne {fs : Files} {place q : Place} {node : Node} (hq : q ≠ place) :
    (fs.put place node).get? q = fs.get? q := by
  have hne : (q == place) = false := by simpa using hq
  simp only [get?, put, List.lookup_cons, hne, lookup_filter_ne hq]

theorem get?_put_self {fs : Files} {place : Place} {node : Node} (hbase : isBase place = false) :
    (fs.put place node).get? place = some node := by
  simp [get?, put, hbase]

/-- A place without a folder is none of those where one always stands. -/
theorem isBase_of_get?_ne {fs : Files} {place : Place} (h : fs.get? place ≠ some .folder) :
    isBase place = false := by
  by_cases hbase : isBase place = true
  · exact absurd (by rw [get?, if_pos hbase]) h
  · simpa using hbase

theorem content?_eq_of_get?_eq {fs fs' : Files} {place : Place}
    (h : fs'.get? place = fs.get? place) :
    fs'.content? place = fs.content? place := by
  rw [content?, content?, h]

theorem read_eq_ok_iff {fs : Files} {path : String} {content : List UInt8} :
    fs.read path = .ok content ↔ fs.find path = .ok (.file content) := by
  rw [read]
  constructor
  · intro h
    split at h
    · next hfind => cases h; exact hfind
    · cases h
    · cases h
  · intro h
    rw [h]

/-- Something stands at the path of a file that can be read. -/
theorem exists?_of_read {fs : Files} {path : String} {content : List UInt8}
    (h : fs.read path = .ok content) : fs.exists? path = .ok true := by
  rw [exists?, read_eq_ok_iff.1 h]

/-! ## Paths after a change -/

/-- Only folders are walked through, so a change elsewhere leaves the walk as it is. -/
theorem walk_put {fs : Files} {place start q : Place} {node : Node} {names : List String}
    (hplace : fs.get? place ≠ some .folder) (h : fs.walk start names = .ok q) :
    (fs.put place node).walk start names = .ok q := by
  induction names generalizing start with
  | nil => exact h
  | cons name names ih =>
      rw [walk] at h ⊢
      cases hget : fs.get? start with
      | none => rw [hget] at h; cases h
      | some at_ =>
          rw [hget] at h
          cases at_ with
          | file content => cases h
          | folder =>
              have hne : start ≠ place := fun he => hplace (he ▸ hget)
              rw [get?_put_of_ne hne, hget]
              simp only at h ⊢
              split at h
              · cases h
              · next hsize =>
                  rw [if_neg hsize]
                  exact ih h

theorem locate_put {fs : Files} {place q : Place} {node : Node} {path : String}
    (hplace : fs.get? place ≠ some .folder) (h : fs.locate path = .ok q) :
    (fs.put place node).locate path = .ok q := by
  rw [locate] at h ⊢
  simp only at h ⊢
  split at h
  · cases h
  · next hnull =>
      rw [if_neg hnull]
      split at h
      · cases h
      · next hempty =>
          rw [if_neg hempty]
          split at h
          · next r hwalk =>
              cases h
              rw [walk_put hplace hwalk]
          · cases h

/-! ## Writing -/

/-- The place where a file can be written, or why it cannot: no folder may stand there, but it
has to lie in one. -/
def target (fs : Files) (path : String) : Except FileError Place :=
  match fs.locate path with
  | .error e => .error e
  | .ok place =>
      match fs.get? place, fs.get? place.dropLast with
      | some .folder, _ => .error ⟨.isFolder, path⟩
      | _, some .folder => .ok place
      | _, _ => .error ⟨.notFound, path⟩

/-- Whether a file can be opened does not depend on what it held. -/
theorem create_eq (fs : Files) (path : String) :
    fs.create path = (fs.target path).map fun place => (place, fs.put place (.file [])) := by
  unfold create target
  cases fs.locate path with
  | error e => rfl
  | ok place =>
      simp only
      rcases fs.get? place with _ | _ | _ <;>
        rcases fs.get? place.dropLast with _ | _ | _ <;> rfl

/-- Of what is put at one place, the last counts. -/
theorem put_put (fs : Files) (place : Place) (node node' : Node) :
    (fs.put place node).put place node' = fs.put place node' := by
  simp [put, List.filter_filter]

theorem target_eq_ok {fs : Files} {path : String} {place : Place}
    (h : fs.target path = .ok place) :
    fs.locate path = .ok place ∧ fs.get? place ≠ some .folder := by
  unfold target at h
  split at h
  · cases h
  · next found hlocate =>
      split at h
      · cases h
      · next hnode => cases h; exact ⟨hlocate, hnode⟩
      · cases h

theorem content?_put_file {fs : Files} {place : Place} {content : List UInt8}
    (hplace : fs.get? place ≠ some .folder) :
    (fs.put place (.file content)).content? place = some content := by
  rw [content?, get?_put_self (isBase_of_get?_ne hplace)]

/-- A file that was written is read back at its path. -/
theorem read_put_file {fs : Files} {path : String} {place : Place} {content : List UInt8}
    (hlocate : fs.locate path = .ok place) (hplace : fs.get? place ≠ some .folder) :
    (fs.put place (.file content)).read path = .ok content := by
  rw [read_eq_ok_iff, find, locate_put hplace hlocate]
  simp only [get?_put_self (isBase_of_get?_ne hplace)]

/-! ## Making folders -/

theorem makeFolder_eq_ok {fs fs' : Files} {path : String} (h : fs.makeFolder path = .ok fs') :
    ∃ place, fs.get? place = none ∧ fs' = fs.put place .folder := by
  rw [makeFolder] at h
  split at h
  · cases h
  · next place _ =>
      split at h
      · cases h
      · next hnone => cases h; exact ⟨place, hnone, rfl⟩

theorem content?_put_folder {fs : Files} {place : Place} (hnone : fs.get? place = none)
    (q : Place) : (fs.put place .folder).content? q = fs.content? q := by
  by_cases hq : q = place
  · have hne : fs.get? place ≠ some .folder := by rw [hnone]; simp
    rw [hq, content?, content?, get?_put_self (isBase_of_get?_ne hne), hnone]
  · exact content?_eq_of_get?_eq (get?_put_of_ne hq)

theorem content?_ensureFolder {fs fs' : Files} {path : String} (h : fs.ensureFolder path = .ok fs')
    (q : Place) : fs'.content? q = fs.content? q := by
  rw [ensureFolder] at h
  split at h
  · next made hmade =>
      cases h
      obtain ⟨place, hnone, rfl⟩ := makeFolder_eq_ok hmade
      exact content?_put_folder hnone q
  · split at h
    · cases h; rfl
    · cases h

/-- **Making folders leaves every content as it is**, also if it fails half way. -/
theorem content?_ensureFolders (fs : Files) (root : String) (names : List String) (q : Place) :
    (fs.ensureFolders root names).1.content? q = fs.content? q := by
  induction names with
  | nil => rfl
  | cons name above ih =>
      rw [ensureFolders]
      split
      · next made hmade => exact content?_ensureFolder hmade q
      · split
        · split
          · next made _ habove =>
              rw [habove] at ih
              split
              · next made' hmade' => rw [content?_ensureFolder hmade' q, ih]
              · exact ih
          · exact ih
        · rfl

end Pcode.Files
