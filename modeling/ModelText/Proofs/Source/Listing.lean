import ModelText.Proofs.Source.Places

/-!
# Listed units are fetched

The names of a directory of units are listed along the ways to its files, and a
unit is fetched by its name alone. A file whose path has a dot only in front of
its extension is plain. Plain files are listed under different names, and by the
name of a plain file this very file is fetched, unless a file of the directory
has the name of the unit as its whole name: such a file is read in its place.
-/

namespace ModelText

open FileTree

namespace UnitDirectory

/-- The name of the unit in the file at the end of a way. -/
def unitName (way : List String) : String :=
  ".".intercalate (way.map Path.stem)

/-- Whether the file at the end of a way has an extension. -/
def hasExtension (extension : String) (way : List String) : Bool :=
  way.getLast?.bind Path.extension? = some extension

/-- The ways to the files of a directory that are listed as units, in the order
of the list. -/
def listed (d : UnitDirectory) (dir : FileTree) : List (List String) :=
  dir.sorted.fileWays.filter (hasExtension d.extension)

/-- Whether the path of a file has one dot only, in front of an extension. -/
def IsPlain (extension : String) (way : List String) : Prop :=
  extension ≠ "" ∧ ∃ directories file,
    way = directories ++ [file ++ "." ++ extension] ∧
      ∀ part ∈ directories ++ [file], '.' ∉ part.toList

/-! ### The list of names -/

theorem foldl_innerName {outer : String} (h : outer ≠ "") (way : List String) :
    way.foldl innerName outer =
      ".".intercalate (outer :: way.map Path.stem) := by
  induction way generalizing outer with
  | nil => exact (String.intercalate_singleton).symm
  | cons name rest ih =>
    have hne : outer ++ "." ++ Path.stem name ≠ "" := fun he =>
      h (String.append_eq_empty_iff.1 (String.append_eq_empty_iff.1 he).1).1
    rw [List.foldl_cons, innerName, if_neg h, ih hne, List.map_cons]
    cases rest with
    | nil => simp
    | cons other rest => simp [String.append_assoc]

theorem foldl_innerName_empty {way : List String} (hne : way ≠ [])
    (h : ∀ name ∈ way, name ≠ "") : way.foldl innerName "" = unitName way := by
  cases way with
  | nil => exact absurd rfl hne
  | cons name rest =>
    rw [List.foldl_cons, innerName, if_pos rfl, unitName, List.map_cons]
    exact foldl_innerName (Path.stem_ne_empty (h name List.mem_cons_self)) rest

theorem namesIn_eq {extension path outer : String}
    {entries : List (String × FileTree)}
    (h : ∀ entry ∈ entries,
      namesInEntry extension path outer entry.1 entry.2 =
        ((entry.2.fileWays.map (entry.1 :: ·)).filter
          (hasExtension extension)).map (·.foldl innerName outer)) :
    namesIn extension path outer entries =
      ((entryWays entries).filter (hasExtension extension)).map
        (·.foldl innerName outer) := by
  induction entries with
  | nil => rfl
  | cons entry rest ih =>
    obtain ⟨he, hrest⟩ := List.forall_mem_cons.1 h
    rw [namesIn, he, ih hrest, entryWays, List.filter_append, List.map_append]

theorem namesInEntry_eq {tree : FileTree} {path : String}
    (h : tree.Readable path) {extension start outer entry : String}
    (hp : Path.join start entry = path) :
    namesInEntry extension start outer entry tree =
      ((tree.fileWays.map (entry :: ·)).filter (hasExtension extension)).map
        (·.foldl innerName outer) := by
  induction h generalizing start outer entry with
  | file short text =>
    rw [namesInEntry, namesOfFile, fileWays]
    by_cases he : Path.extension? entry = some extension <;>
      simp [he, hasExtension]
  | @directory path entries short inner ih =>
    have hlast : (entryWays entries).filter
        (hasExtension extension ∘ (entry :: ·)) =
        (entryWays entries).filter (hasExtension extension) := by
      refine List.filter_congr fun way hm => ?_
      rw [entryWays_eq] at hm
      obtain ⟨_, -, hm⟩ := List.mem_flatMap.1 hm
      obtain ⟨rest, -, rfl⟩ := List.mem_map.1 hm
      rfl
    rw [namesInEntry, hp, if_neg (by simp [short]),
      namesIn_eq fun e he => ih e he rfl, fileWays, List.filter_map, hlast,
      List.map_map]
    rfl

theorem mem_listed_iff {d : UnitDirectory} {dir : FileTree}
    (h : dir.WellFormed) {way : List String} : way ∈ d.listed dir ↔
      (∃ content, dir.at? way = some (.file content)) ∧
        hasExtension d.extension way = true := by
  rw [listed, List.mem_filter, mem_fileWays_sorted h, mem_fileWays_iff h]

/-- The names are those of the files that have the extension. -/
theorem names_eq {d : UnitDirectory} {tree dir : FileTree}
    (ht : tree.WellFormed) (hd : tree.subtree d.root = .ok dir)
    (hr : dir.Readable d.root) :
    d.names tree = (d.listed dir).map unitName := by
  have hw := ht.subtree hd
  have hnames : (d.listed dir).map unitName =
      (d.listed dir).map (·.foldl innerName "") := by
    refine List.map_congr_left fun way hm => (foldl_innerName_empty ?_ ?_).symm
    · rintro rfl
      exact absurd (List.of_mem_filter hm) (by simp [hasExtension])
    · obtain ⟨⟨_, hc⟩, -⟩ := (mem_listed_iff hw).1 hm
      exact fun name hn => ((hw.at? hc).2 name hn).ne_empty
  rw [hnames, names, subtree_sorted ht hd, listed]
  have hs := hr.sorted
  cases hdir : dir.sorted with
  | file content => rfl
  | directory entries =>
    rw [hdir] at hs
    cases hs with
    | directory short inner =>
      exact namesIn_eq fun e he => namesInEntry_eq (inner e he) rfl

/-! ### Plain files -/

/-- The way to a plain file is that of the names between the dots of its unit,
with the extension behind the last one. -/
theorem exists_parts {extension : String} {way : List String}
    (hp : IsPlain extension way) (he : hasExtension extension way = true)
    (hw : ∀ name ∈ way, Path.IsName name) :
    ∃ directories file, way = directories ++ [file ++ "." ++ extension] ∧
      way.map Path.stem = directories ++ [file] ∧
      ∀ part ∈ directories ++ [file],
        '.' ∉ part.toList ∧ Path.IsName part := by
  obtain ⟨-, directories, file, rfl, hdot⟩ := hp
  obtain ⟨hdirs, hfile⟩ := List.forall_mem_append.1 hdot
  obtain ⟨hwdirs, hwlast⟩ := List.forall_mem_append.1 hw
  have hlast := hwlast _ List.mem_cons_self
  have hnd := hfile file List.mem_cons_self
  have hext : Path.extension? (file ++ "." ++ extension) = some extension := by
    simpa [hasExtension] using he
  have hstem : file = Path.stem (file ++ "." ++ extension) := by
    have h := Path.eq_of_extension? hext
    exact (String.append_left_inj _).1 ((String.append_left_inj _).1 h)
  have hne : file ≠ "" := by
    rw [hstem]
    exact Path.stem_ne_empty hlast.ne_empty
  have hname : Path.IsName file := by
    refine Path.isName_of_splitOn ?_ ?_ ?_
    · exact fun h => hlast.no_slash (by simp [h])
    · exact fun h => hlast.no_zero (by simp [h])
    · rw [Text.splitOn_of_not_mem hnd]
      simpa using hne.symm
  refine ⟨directories, file, rfl, ?_, List.forall_mem_append.2 ⟨?_, ?_⟩⟩
  · rw [List.map_append, List.map_singleton, ← hstem]
    congr 1
    conv_rhs => rw [← List.map_id directories]
    exact List.map_congr_left fun name hm => Path.stem_of_no_dot (hdirs name hm)
  · exact fun name hm => ⟨hdirs name hm, hwdirs name hm⟩
  · exact fun name hm => List.mem_singleton.1 hm ▸ ⟨hnd, hname⟩

variable {extension : String} {way : List String}

/-- Cutting the name of the unit in a plain file at its dots gives the stems
back. -/
theorem splitOn_unitName (hp : IsPlain extension way)
    (he : hasExtension extension way = true)
    (hw : ∀ name ∈ way, Path.IsName name) :
    Text.splitOn '.' (unitName way) = way.map Path.stem := by
  obtain ⟨directories, file, -, hs, hparts⟩ := exists_parts hp he hw
  rw [unitName, hs]
  exact Text.splitOn_intercalate (by simp) fun part hm => (hparts part hm).1

theorem isName_unitName (hp : IsPlain extension way)
    (he : hasExtension extension way = true)
    (hw : ∀ name ∈ way, Path.IsName name) : Path.IsName (unitName way) := by
  obtain ⟨directories, file, -, hs, hparts⟩ := exists_parts hp he hw
  have hmem {c : Char} (hc : c ∈ (unitName way).toList) :
      c = '.' ∨ ∃ part ∈ directories ++ [file], c ∈ part.toList := by
    rw [unitName, hs] at hc
    exact Text.mem_of_mem_intercalate hc
  refine Path.isName_of_splitOn (fun h => ?_) (fun h => ?_) (fun h => ?_)
  · rcases hmem h with h | ⟨part, hm, h⟩
    · exact absurd h (by decide)
    · exact (hparts part hm).2.no_slash h
  · rcases hmem h with h | ⟨part, hm, h⟩
    · exact absurd h (by decide)
    · exact (hparts part hm).2.no_zero h
  · rw [splitOn_unitName hp he hw, hs] at h
    exact (hparts _ h).2.ne_empty rfl

/-- Plain files with units of one name are one. -/
theorem eq_of_unitName_eq {other : List String}
    (hp : IsPlain extension way) (hp' : IsPlain extension other)
    (he : hasExtension extension way = true)
    (he' : hasExtension extension other = true)
    (hw : ∀ name ∈ way, Path.IsName name)
    (hw' : ∀ name ∈ other, Path.IsName name)
    (h : unitName way = unitName other) : way = other := by
  have hstems := splitOn_unitName hp he hw
  rw [h, splitOn_unitName hp' he' hw'] at hstems
  obtain ⟨directories, file, rfl, hs, -⟩ := exists_parts hp he hw
  obtain ⟨directories', file', rfl, hs', -⟩ := exists_parts hp' he' hw'
  rw [hs, hs'] at hstems
  obtain ⟨rfl, hlast⟩ := List.append_inj' hstems rfl
  obtain rfl : file' = file := (List.cons.inj hlast).1
  rfl

/-- The name of the unit in a plain file leads back to the file. -/
theorem dottedPath_unitName {d : UnitDirectory}
    (hp : IsPlain d.extension way)
    (he : hasExtension d.extension way = true)
    (hw : ∀ name ∈ way, Path.IsName name) :
    d.dottedPath (unitName way) = way.foldl Path.join d.root := by
  have hway : Text.splitOn '/' (way.foldl Path.join d.root) =
      Path.lead d.root ++ way := by
    refine Path.splitOn_foldl_join
      (fun name hm => ⟨(hw name hm).no_slash, (hw name hm).ne_empty⟩) ?_ _
    rintro rfl
    simp [hasExtension] at he
  rw [dottedPath, splitOn_unitName hp he hw]
  obtain ⟨directories, file, rfl, hs, hparts⟩ := exists_parts hp he hw
  obtain ⟨hdot, hname⟩ :=
    hparts file (List.mem_append_right _ List.mem_cons_self)
  have hsplit : Text.splitOn '/'
      ((directories ++ [file]).foldl Path.join d.root) =
        (Path.lead d.root ++ directories) ++ file :: [] := by
    rw [List.append_assoc]
    exact Path.splitOn_foldl_join (fun name hm =>
      ⟨(hparts name hm).2.no_slash, (hparts name hm).2.ne_empty⟩) (by simp) _
  rw [hs, Path.withExtension_eq hsplit (fun _ hm => by cases hm) hname.not_stay
    hname.ne_up, Path.stem_of_no_dot hdot, Path.ending, if_neg hp.1,
    ← String.append_assoc, List.append_assoc]
  exact (Text.eq_intercalate_of_splitOn hway).symm

/-! ### Fetching -/

/-- How the list of the names of a directory goes together with fetching. -/
structure ListedAsFetched (d : UnitDirectory) (tree dir : FileTree) :
    Prop where
  /-- The names are those of the units in the listed files. -/
  names_eq : d.names tree = (d.listed dir).map unitName
  /-- Each file that has the extension is listed, and no other. -/
  mem_listed : ∀ way, way ∈ d.listed dir ↔
    (∃ content, dir.at? way = some (.file content)) ∧
      hasExtension d.extension way = true
  /-- No file is listed twice. -/
  nodup_listed : (d.listed dir).Nodup
  /-- Plain files are listed under different names. -/
  different : ∀ way ∈ d.listed dir, ∀ other ∈ d.listed dir,
    IsPlain d.extension way → IsPlain d.extension other →
      unitName way = unitName other → way = other
  /-- Where all files are plain, no name is listed twice. -/
  nodup_names : (∀ way ∈ d.listed dir, IsPlain d.extension way) →
    (d.names tree).Nodup
  /-- A file of the directory is fetched by its whole name. -/
  fetch_whole : ∀ name content, dir.at? [name] = some (.file content) →
    ∃ text, String.fromUTF8? content = some text ∧
      d.fetch tree.files name = some text
  /-- A plain file is fetched by the name of its unit, if that is not the whole
  name of a file. -/
  fetch_plain : ∀ way ∈ d.listed dir, IsPlain d.extension way →
    (∀ whole, dir.at? [unitName way] ≠ some (.file whole)) →
      ∀ content, dir.at? way = some (.file content) →
        ∃ text, String.fromUTF8? content = some text ∧
          d.fetch tree.files (unitName way) = some text

section

variable {d : UnitDirectory} {tree dir : FileTree} (ht : tree.WellFormed)
  (hd : tree.subtree d.root = .ok dir) (hr : dir.Readable d.root)
include ht hd hr

theorem fetch_whole {name : String} {content : ByteArray}
    (h : dir.at? [name] = some (.file content)) :
    ∃ text, String.fromUTF8? content = some text ∧
      d.fetch tree.files name = some text := by
  have hw := ((ht.subtree hd).at? h).2
  have hf : tree.find (Path.join d.root name) = .ok content :=
    (find_foldl_join_iff ht hd hr (List.cons_ne_nil _ _) hw).2 h
  have hp : d.path tree.files name = Path.join d.root name :=
    if_pos (Files.isFile_iff.2 ⟨content, hf⟩)
  cases hr.at? h with
  | file short text =>
    obtain ⟨text, hc⟩ := text
    exact ⟨text, hc, fetch_eq_some_iff.2 ⟨content, hp ▸ hf, hc⟩⟩

theorem fetch_plain {way : List String} (hm : way ∈ d.listed dir)
    (hplain : IsPlain d.extension way)
    (hno : ∀ whole, dir.at? [unitName way] ≠ some (.file whole))
    {content : ByteArray} (h : dir.at? way = some (.file content)) :
    ∃ text, String.fromUTF8? content = some text ∧
      d.fetch tree.files (unitName way) = some text := by
  have hdir := ht.subtree hd
  have hw := (hdir.at? h).2
  have he := ((mem_listed_iff hdir).1 hm).2
  have hne : way ≠ [] := by
    rintro rfl
    simp [hasExtension] at he
  have hname : ∀ name ∈ [unitName way], Path.IsName name :=
    List.forall_mem_singleton.2 (isName_unitName hplain he hw)
  have hf : tree.find (way.foldl Path.join d.root) = .ok content :=
    (find_foldl_join_iff ht hd hr hne hw).2 h
  have hp : d.path tree.files (unitName way) = way.foldl Path.join d.root := by
    rw [path, if_neg, dottedPath_unitName hplain he hw]
    rw [Files.isFile_iff]
    rintro ⟨whole, hwhole⟩
    exact hno whole
      ((find_foldl_join_iff ht hd hr (List.cons_ne_nil _ _) hname).1 hwhole)
  cases hr.at? h with
  | file short text =>
    obtain ⟨text, hc⟩ := text
    exact ⟨text, hc, fetch_eq_some_iff.2 ⟨content, hp ▸ hf, hc⟩⟩

end

/-- In a readable directory the names go together with what is fetched. The
directory is found in the tree in which the program runs, so its path is one that
starts there: an absolute root leads outside of the tree, into a directory without
files, and nothing is listed in it. -/
theorem listed_units_are_fetched (d : UnitDirectory) (tree dir : FileTree)
    (ht : tree.WellFormed) (hd : tree.subtree d.root = .ok dir)
    (hr : dir.Readable d.root) : ListedAsFetched d tree dir := by
  have hdir := ht.subtree hd
  have hlisted {way : List String} (hm : way ∈ d.listed dir) :
      hasExtension d.extension way = true ∧
        ∀ name ∈ way, Path.IsName name := by
    obtain ⟨⟨_, hc⟩, he⟩ := (mem_listed_iff hdir).1 hm
    exact ⟨he, (hdir.at? hc).2⟩
  have hnodup : (d.listed dir).Nodup := (nodup_fileWays hdir.sorted).filter _
  have hdifferent : ∀ way ∈ d.listed dir, ∀ other ∈ d.listed dir,
      IsPlain d.extension way → IsPlain d.extension other →
        unitName way = unitName other → way = other := by
    intro way hm other ho hp hp' h
    obtain ⟨he, hw⟩ := hlisted hm
    obtain ⟨he', hw'⟩ := hlisted ho
    exact eq_of_unitName_eq hp hp' he he' hw hw' h
  refine ⟨names_eq ht hd hr, fun _ => mem_listed_iff hdir, hnodup, hdifferent,
    fun hall => ?_, fun _ _ => fetch_whole ht hd hr,
    fun _ hm hp hno _ => fetch_plain ht hd hr hm hp hno⟩
  rw [names_eq ht hd hr]
  exact hnodup.map_on fun way hm other ho h =>
    hdifferent way hm other ho (hall way hm) (hall other ho) h

/-- A directory in which a file has the name of a unit as its whole name. -/
def shadowing : FileTree :=
  .directory [("main", .file "1".toUTF8), ("main.simon", .file "2".toUTF8),
    ("ui", .directory [("screens.simon", .file "3".toUTF8)])]

theorem wellFormed_shadowing : shadowing.WellFormed := by
  have hname {name : String} (hs : '/' ∉ name.toList)
      (hz : '\x00' ∉ name.toList) (h : "" ∉ Text.splitOn '.' name) :=
    Path.isName_of_splitOn hs hz h
  refine .directory (by decide) ?_ ?_ ?_
  · simp only [List.forall_mem_cons]
    refine ⟨?_, ?_, ?_, nofun⟩ <;>
      exact hname (by decide) (by decide) (by decide)
  · decide
  · simp only [List.forall_mem_cons]
    refine ⟨.file _, .file _, .directory (by decide) ?_ (by decide) ?_, nofun⟩
    · exact List.forall_mem_singleton.2
        (hname (by decide) (by decide) (by decide))
    · exact List.forall_mem_singleton.2 (.file _)

theorem subtree_shadowing : shadowing.subtree "." = .ok shadowing := rfl

theorem readable_shadowing : shadowing.Readable "." := by
  refine .directory (by decide) ?_
  simp only [List.forall_mem_cons]
  refine ⟨.file (by decide) ⟨"1", by decide +kernel⟩,
    .file (by decide) ⟨"2", by decide +kernel⟩,
    .directory (by decide) (List.forall_mem_singleton.2 ?_), nofun⟩
  exact .file (by decide) ⟨"3", by decide +kernel⟩

theorem listed_units_are_fetched_shadowing :
    shadowing.WellFormed ∧ shadowing.subtree "." = .ok shadowing ∧
      shadowing.Readable "." ∧
      ListedAsFetched ⟨".", "simon"⟩ shadowing shadowing :=
  ⟨wellFormed_shadowing, subtree_shadowing, readable_shadowing,
    listed_units_are_fetched ⟨".", "simon"⟩ shadowing shadowing
      wellFormed_shadowing subtree_shadowing readable_shadowing⟩

/-- Not every listed file is the one that is fetched by its name: by the name of
the unit in `main.simon` the file `main` is fetched. -/
theorem shadowed_unit_not_fetched :
    ¬ ∀ (d : UnitDirectory) (tree dir : FileTree), tree.WellFormed →
      tree.subtree d.root = .ok dir → dir.Readable d.root →
        (d.names tree).Nodup ∧ ∀ way ∈ d.listed dir, ∀ content,
          dir.at? way = some (.file content) →
            d.fetch tree.files (unitName way) = String.fromUTF8? content := by
  intro h
  obtain ⟨-, hfetch⟩ := h ⟨".", "simon"⟩ shadowing shadowing
    wellFormed_shadowing subtree_shadowing readable_shadowing
  have hmain : shadowing.at? ["main.simon"] = some (.file "2".toUTF8) := rfl
  have hlisted : ["main.simon"] ∈ listed ⟨".", "simon"⟩ shadowing :=
    (mem_listed_iff wellFormed_shadowing).2 ⟨⟨_, hmain⟩, by decide⟩
  have hone : fetch ⟨".", "simon"⟩ shadowing.files (unitName ["main.simon"]) =
      some "1" := by decide +kernel
  have htwo : String.fromUTF8? "2".toUTF8 = some "2" := by decide +kernel
  have := hone.symm.trans ((hfetch _ hlisted _ hmain).trans htwo)
  exact absurd this (by decide)

end UnitDirectory

end ModelText
