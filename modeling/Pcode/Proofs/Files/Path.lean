import Pcode.Files.Path

set_option autoImplicit false

/-! # Reading and writing paths

Every path that was read is proper: its names are neither empty nor `.` and have no slash in them.
A proper path is read back from its text (`ofString_toString`), and stays proper when its suffix is
replaced (`Proper.withSuffix?`). -/

namespace Pcode.Path

/-! ## Slashes -/

theorem splitSlash_ne_nil (s : List Char) : splitSlash s ≠ [] := by
  cases s with
  | nil => simp [splitSlash]
  | cons c s =>
      rw [splitSlash]
      split
      · simp
      · split
        · simp
        · simp

theorem splitSlash_slash_cons (s : List Char) : splitSlash ('/' :: s) = [] :: splitSlash s := by
  rw [splitSlash]
  split
  · next h => exact absurd h (splitSlash_ne_nil s)
  · next h => rw [if_pos rfl, h]

theorem splitSlash_of_not_mem {s : List Char} (h : '/' ∉ s) : splitSlash s = [s] := by
  induction s with
  | nil => rfl
  | cons c s ih =>
      obtain ⟨hc, hs⟩ := not_or.1 (mt List.mem_cons.2 h)
      rw [splitSlash, ih hs]
      exact if_neg (Ne.symm hc)

theorem splitSlash_append_slash {s : List Char} (h : '/' ∉ s) (t : List Char) :
    splitSlash (s ++ '/' :: t) = s :: splitSlash t := by
  induction s with
  | nil => exact splitSlash_slash_cons t
  | cons c s ih =>
      obtain ⟨hc, hs⟩ := not_or.1 (mt List.mem_cons.2 h)
      rw [List.cons_append, splitSlash, ih hs]
      exact if_neg (Ne.symm hc)

theorem slash_not_mem_of_mem_splitSlash {s part : List Char} (h : part ∈ splitSlash s) :
    '/' ∉ part := by
  induction s generalizing part with
  | nil =>
      rw [List.mem_singleton.1 h]
      exact List.not_mem_nil
  | cons c s ih =>
      by_cases hc : c = '/'
      · rw [hc, splitSlash_slash_cons] at h
        rcases List.mem_cons.1 h with rfl | h
        · exact List.not_mem_nil
        · exact ih h
      · rw [splitSlash] at h
        split at h
        · rw [List.mem_singleton.1 h]
          simpa using Ne.symm hc
        · next first rest hsplit =>
            rw [if_neg hc] at h
            rw [hsplit] at ih
            rcases List.mem_cons.1 h with rfl | h
            · have hfirst : '/' ∉ first := ih (by simp)
              simpa [hfirst] using Ne.symm hc
            · exact ih (by simp [h])

/-- Names without slashes are read back when they are joined by slashes. -/
theorem splitSlash_intercalate {part : List Char} {parts : List (List Char)}
    (h : ∀ p ∈ part :: parts, '/' ∉ p) :
    splitSlash (['/'].intercalate (part :: parts)) = part :: parts := by
  induction parts generalizing part with
  | nil =>
      rw [List.intercalate_singleton]
      exact splitSlash_of_not_mem (h part (by simp))
  | cons next parts ih =>
      rw [List.intercalate_cons_cons, List.append_assoc, List.singleton_append,
        splitSlash_append_slash (h part (by simp)), ih fun p hp => h p (by simp [hp])]

/-! ## Proper paths -/

/-- A name of a path that was read. -/
def IsName (name : String) : Prop := name ≠ "" ∧ name ≠ "." ∧ '/' ∉ name.toList

/-- The roots that a path may have. -/
def IsRoot (root : String) : Prop := root = "" ∨ root = "/" ∨ root = "//"

/-- A path as it is read. -/
structure Proper (p : Path) : Prop where
  root : IsRoot p.root
  names : ∀ name ∈ p.names, IsName name

theorem proper_ofString (s : String) : (ofString s).Proper := by
  constructor
  · unfold ofString
    dsimp only
    split
    · exact .inr (.inl rfl)
    · exact .inr (.inr rfl)
    · exact .inr (.inl rfl)
    · exact .inl rfl
  · intro name hname
    obtain ⟨hmem, hkept⟩ := List.mem_filter.1 hname
    obtain ⟨part, hpart, rfl⟩ := List.mem_map.1 hmem
    obtain ⟨hempty, hdot⟩ : String.ofList part ≠ "" ∧ String.ofList part ≠ "." := by
      simpa using hkept
    refine ⟨hempty, hdot, ?_⟩
    rw [String.toList_ofList]
    exact slash_not_mem_of_mem_splitSlash hpart

/-- A root is read from in front of a text that begins with no slash. -/
theorem root_ofString_append {root text : String} (hroot : IsRoot root) {c : Char}
    {rest : List Char} (htext : text.toList = c :: rest) (hc : c ≠ '/') :
    (ofString (root ++ text)).root = root := by
  unfold ofString
  dsimp only
  rw [String.toList_append, htext]
  rcases hroot with rfl | rfl | rfl
  · rw [show "".toList ++ c :: rest = c :: rest from rfl]
    split
    · next h => exact absurd (List.cons.inj h).1 hc
    · next h => exact absurd (List.cons.inj h).1 hc
    · next h => exact absurd (List.cons.inj h).1 hc
    · rfl
  · rw [show "/".toList ++ c :: rest = '/' :: c :: rest from rfl]
    split
    · rfl
    · next h => exact absurd (List.cons.inj (List.cons.inj h).2).1 hc
    · rfl
    · next h => exact absurd rfl (h _)
  · rw [show "//".toList ++ c :: rest = '/' :: '/' :: c :: rest from rfl]
    split
    · next h => exact absurd (List.cons.inj (List.cons.inj (List.cons.inj h).2).2).1 hc
    · rfl
    · next hnot h => exact absurd (List.cons.inj h).2.symm (hnot _)
    · next h _ => exact absurd rfl (h _)

theorem names_ofString (s : String) :
    (ofString s).names =
      ((splitSlash s.toList).map String.ofList).filter fun n => n != "" && n != "." := rfl

/-- A root brings no names. -/
theorem names_ofString_append {root : String} (hroot : IsRoot root) (text : String) :
    (ofString (root ++ text)).names = (ofString text).names := by
  rw [names_ofString, names_ofString, String.toList_append]
  rcases hroot with rfl | rfl | rfl
  · rfl
  · show ((splitSlash ('/' :: text.toList)).map String.ofList).filter _ = _
    rw [splitSlash_slash_cons]
    rfl
  · show ((splitSlash ('/' :: '/' :: text.toList)).map String.ofList).filter _ = _
    rw [splitSlash_slash_cons, splitSlash_slash_cons]
    rfl

/-- Names joined by slashes are read back. -/
theorem names_ofString_intercalate {name : String} {names : List String}
    (h : ∀ n ∈ name :: names, IsName n) :
    (ofString ("/".intercalate (name :: names))).names = name :: names := by
  have hsplit : splitSlash ("/".intercalate (name :: names)).toList =
      (name :: names).map String.toList := by
    rw [String.toList_intercalate]
    refine splitSlash_intercalate fun part hpart => ?_
    rw [← List.map_cons] at hpart
    obtain ⟨n, hn, rfl⟩ := List.mem_map.1 hpart
    exact (h n hn).2.2
  have hback : String.ofList ∘ String.toList = id := by
    funext n
    exact String.ofList_toList
  rw [names_ofString, hsplit, List.map_map, hback, List.map_id, List.filter_eq_self]
  intro n hn
  obtain ⟨hempty, hdot, -⟩ := h n hn
  simp [hempty, hdot]

/-- Names joined by slashes begin with no slash. -/
theorem toList_intercalate_eq_cons {name : String} (h : IsName name) (names : List String) :
    ∃ c rest, ("/".intercalate (name :: names)).toList = c :: rest ∧ c ≠ '/' := by
  obtain ⟨hempty, -, hslash⟩ := h
  obtain ⟨rest, hrest⟩ :
      ∃ rest, ("/".intercalate (name :: names)).toList = name.toList ++ rest := by
    rw [String.toList_intercalate, List.map_cons]
    cases names.map String.toList with
    | nil => exact ⟨[], by rw [List.intercalate_singleton, List.append_nil]⟩
    | cons next parts =>
        exact ⟨_, by rw [List.intercalate_cons_cons, List.append_assoc]⟩
  cases hname : name.toList with
  | nil => exact absurd (String.toList_inj.1 hname) hempty
  | cons c more =>
      refine ⟨c, more ++ rest, by rw [hrest, hname, List.cons_append], fun hc => ?_⟩
      exact hslash (by rw [hname, hc]; exact List.mem_cons_self)

/-- **A proper path is read back from its text.** -/
theorem ofString_toString {p : Path} (hp : p.Proper) : ofString p.toString = p := by
  obtain ⟨root, names⟩ := p
  obtain ⟨hroot, hnames⟩ := hp
  dsimp only at hroot hnames
  cases names with
  | nil => rcases hroot with rfl | rfl | rfl <;> decide
  | cons name names =>
      have htext : toString ⟨root, name :: names⟩ =
          root ++ "/".intercalate (name :: names) := by
        simp [toString]
      obtain ⟨c, rest, hjoined, hc⟩ := toList_intercalate_eq_cons (hnames name (by simp)) names
      have hsame : (ofString (root ++ "/".intercalate (name :: names))).names = name :: names := by
        rw [names_ofString_append hroot, names_ofString_intercalate hnames]
      rw [htext]
      exact congr (congrArg mk (root_ofString_append hroot hjoined hc)) hsame

/-! ## Names and suffixes -/

/-- The last part of a text between slashes ends as the text does. -/
theorem splitSlash_append {u : List Char} (hu : '/' ∉ u) (t : List Char) :
    ∃ parts part, splitSlash (t ++ u) = parts ++ [part ++ u] := by
  induction t with
  | nil => exact ⟨[], [], splitSlash_of_not_mem hu⟩
  | cons c t ih =>
      obtain ⟨parts, part, hsplit⟩ := ih
      by_cases hc : c = '/'
      · exact ⟨[] :: parts, part, by rw [hc, List.cons_append, splitSlash_slash_cons, hsplit]; rfl⟩
      · rw [List.cons_append, splitSlash, hsplit]
        cases parts with
        | nil => exact ⟨[], c :: part, if_neg hc⟩
        | cons first parts => exact ⟨(c :: first) :: parts, part, if_neg hc⟩

/-- A path whose text ends in `u`, which is no `.`, has a name that ends so. -/
theorem name_ofString_append {s : String} {t u : List Char} (hs : s.toList = t ++ u)
    (hu : '/' ∉ u) (hlength : 2 ≤ u.length) :
    ∃ part, (ofString s).name = String.ofList (part ++ u) := by
  obtain ⟨parts, part, hsplit⟩ := splitSlash_append hu t
  have hkept : ([String.ofList (part ++ u)].filter fun n => n != "" && n != ".") =
      [String.ofList (part ++ u)] := by
    have hne : ∀ other : String, other.toList.length < 2 → String.ofList (part ++ u) ≠ other := by
      intro other hshort heq
      rw [← heq, String.toList_ofList, List.length_append] at hshort
      omega
    rw [List.filter_eq_self]
    intro n hn
    rw [List.mem_singleton.1 hn, Bool.and_eq_true, bne_iff_ne, bne_iff_ne]
    exact ⟨hne "" (by decide), hne "." (by decide)⟩
  refine ⟨part, ?_⟩
  rw [name, names_ofString, hs, hsplit, List.map_append, List.filter_append, List.map_singleton,
    hkept, List.getLast?_concat]
  rfl

/-- The part of a name before its suffix. -/
theorem splitName_stem {name : String} (h : name ≠ "") :
    (splitName name).1 ≠ "" ∧ ∀ c ∈ (splitName name).1.toList, c ∈ name.toList := by
  unfold splitName
  dsimp only
  split
  · next dot stem hdrop =>
      split
      · exact ⟨h, fun _ hc => hc⟩
      · next hneither =>
          constructor
          · intro hempty
            change String.ofList stem.reverse = "" at hempty
            have hnil : stem.reverse = [] := by
              rw [← String.toList_ofList (l := stem.reverse), hempty]
              rfl
            rw [List.reverse_eq_nil_iff.1 hnil] at hneither
            exact hneither (by simp)
          · intro c hc
            rw [String.toList_ofList, List.mem_reverse] at hc
            have hmem : c ∈ name.toList.reverse.dropWhile (· != '.') := by
              rw [hdrop]
              exact List.mem_cons_of_mem _ hc
            exact List.mem_reverse.1 ((List.dropWhile_sublist _).mem hmem)
  · exact ⟨h, fun _ hc => hc⟩

/-- A path with a name can be given a suffix. -/
theorem withSuffix?_of_name_ne {p : Path} (h : p.name ≠ "") (suffix : String) :
    p.withSuffix? suffix = some (p.parent.child ((splitName p.name).1 ++ suffix)) := by
  rw [withSuffix?, if_neg (by simpa using h)]

theorem Proper.withSuffix? {p m : Path} (hp : p.Proper) {suffix : String}
    (hsuffix : 2 ≤ suffix.toList.length) (hslash : '/' ∉ suffix.toList)
    (h : p.withSuffix? suffix = some m) : m.Proper := by
  by_cases hname : p.name = ""
  · rw [Path.withSuffix?, if_pos (by simpa using hname)] at h
    cases h
  · rw [withSuffix?_of_name_ne hname] at h
    cases h
    refine ⟨hp.root, fun name hmem => ?_⟩
    rcases List.mem_append.1 hmem with hmem | hmem
    · exact hp.names name (List.dropLast_subset _ hmem)
    · obtain rfl := List.mem_singleton.1 hmem
      have hne : ∀ other : String, other.toList.length < 2 →
          (splitName p.name).1 ++ suffix ≠ other := by
        intro other hshort heq
        rw [← heq, String.toList_append, List.length_append] at hshort
        omega
      refine ⟨hne "" (by decide), hne "." (by decide), ?_⟩
      rw [String.toList_append, List.mem_append, not_or]
      refine ⟨fun hstem => ?_, hslash⟩
      -- the name is the last one of a proper path
      cases hlast : p.names.getLast? with
      | none => exact hname (by rw [name, hlast]; rfl)
      | some last =>
          have hlast' : p.name = last := by rw [name, hlast]; rfl
          have hmem' := (splitName_stem hname).2 '/' hstem
          rw [hlast'] at hmem'
          exact (hp.names last (List.mem_of_getLast? hlast)).2.2 hmem'

end Pcode.Path
