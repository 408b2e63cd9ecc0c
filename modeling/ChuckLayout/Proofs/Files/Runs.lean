import ChuckLayout.CommandLine.Run
import ChuckLayout.Proofs.Files.Tree

/-!
# Runs over files

A run goes over the files that its arguments stand for.  Formatting one of them changes neither where
paths lead nor what is in the others, so each file is formatted as if it were alone.  Main statement: a
check reports the files that a run that writes would change, and this run changes no other.
-/

namespace ChuckLayout.CommandLine

open Files (FileTree Name Node Path bytesOfText textOfBytes? textOfBytes?_eq_some_iff)

/-! ## Steps on a tree -/

section

variable {α β : Type}

theorem run_bind (action : StateM FileTree α) (next : α → StateM FileTree β) (tree : FileTree) :
    (action >>= next).run tree = (next (action.run tree).1).run (action.run tree).2 := rfl

theorem run_pure (value : α) (tree : FileTree) :
    (pure value : StateM FileTree α).run tree = (value, tree) := rfl

end

section

variable (input : ByteArray) {tree : FileTree} {path : Path} {source : List Char}

/-- The files that paths stand for in a tree. -/
def collected (tree : FileTree) (recursive : Bool) (paths : List Path) : List Path :=
  paths.flatMap fun path => Node.expand recursive path ((tree.node? path).map Node.shape)

/-- Looking for files leaves the tree as it is. -/
theorem run_selectFiles (tree : FileTree) (recursive : Bool) (paths : List Path) :
    (selectFiles (FileTree.workspace input) recursive paths).run tree =
      (collected tree recursive paths, tree) := by
  induction paths with
  | nil => rfl
  | cons path rest ih =>
      have hshape : ((FileTree.workspace input).shape? recursive path).run tree =
          ((tree.node? path).map Node.shape, tree) := rfl
      rw [selectFiles, run_bind, hshape, run_bind, ih, run_pure]
      rfl

theorem run_write {text : List Char} {written : FileTree}
    (hwritten : tree.write path text = .ok written) :
    ((FileTree.workspace input).write path text).run tree = (.ok (), written) := by
  have hget : (get : StateM FileTree FileTree).run tree = (tree, tree) := rfl
  rw [FileTree.workspace, run_bind, hget]
  dsimp only
  rw [hwritten]
  rfl

/-- Once a file is read, what is done about it depends on its content and the options alone. -/
theorem run_formatFile (options : Options) (hread : tree.read path = .ok source) :
    (formatFile (FileTree.workspace input) options path).run tree =
      (carryOut (FileTree.workspace input) path
        (actionFor options.mode options.emission source)).run tree := by
  have hsource : ((FileTree.workspace input).read path).run tree = (.ok source, tree) := by
    rw [← hread]
    rfl
  rw [formatFile, run_bind, hsource]

theorem run_formatFiles_cons {options : Options} {rest : List Path} {first : Report}
    {between : FileTree}
    (hfirst : (formatFile (FileTree.workspace input) options path).run tree = (first, between))
    (hfailure : first.failure = none) :
    (formatFiles (FileTree.workspace input) options (path :: rest)).run tree =
      let later := (formatFiles (FileTree.workspace input) options rest).run between
      ({ printed := first.printed ++ later.1.printed
         untidy := first.untidy ++ later.1.untidy
         failure := later.1.failure }, later.2) := by
  rw [formatFiles, run_bind, hfirst]
  simp only [hfailure, Option.isSome_none]
  rfl

end

/-! ## Runs that check -/

/-- Formatting would change the file that a path leads to. -/
def changes (tree : FileTree) (path : Path) : Bool :=
  match tree.read path with
  | .ok source => fileContent (Document.tidy source) != source
  | .error _ => false

section

variable (input : ByteArray) {tree : FileTree} {options : Options}
  (hcheck : options.mode = .check) (htext : options.emission = .text)

include hcheck htext

/-- A check reports a file exactly if formatting would change it, and writes nothing. -/
theorem run_formatFile_check {path : Path} {source : List Char}
    (hread : tree.read path = .ok source) :
    (formatFile (FileTree.workspace input) options path).run tree =
      ({ untidy := [path].filter (changes tree) }, tree) := by
  rw [run_formatFile input options hread, hcheck, htext]
  by_cases hsame : fileContent (Document.tidy source) = source
  · have hkept : changes tree path = false := by simp [changes, hread, hsame]
    rw [List.filter_cons_of_neg (by simp [hkept]), actionFor, if_pos hsame]
    rfl
  · have hchanged : changes tree path = true := by simp [changes, hread, hsame]
    rw [List.filter_cons_of_pos hchanged, actionFor, if_neg hsame]
    rfl

/-- A check changes nothing, and reports the files that formatting would change. -/
theorem run_formatFiles_check {files : List Path}
    (hread : ∀ path ∈ files, ∃ source, tree.read path = .ok source) :
    (formatFiles (FileTree.workspace input) options files).run tree =
      ({ untidy := files.filter (changes tree) }, tree) := by
  induction files with
  | nil => rfl
  | cons path rest ih =>
      obtain ⟨⟨source, hsource⟩, hrest⟩ := List.forall_mem_cons.mp hread
      rw [run_formatFiles_cons input (run_formatFile_check input hcheck htext hsource) rfl, ih hrest]
      have hfilter : (path :: rest).filter (changes tree) =
          [path].filter (changes tree) ++ rest.filter (changes tree) :=
        List.filter_append [path] rest
      rw [hfilter]
      rfl

end

/-! ## Runs that write -/

def formattedBytes (bytes : ByteArray) : ByteArray :=
  ((textOfBytes? bytes).map fun source =>
    bytesOfText (fileContent (Document.tidy source))).getD bytes

theorem formattedBytes_bytesOfText (source : List Char) :
    formattedBytes (bytesOfText source) = bytesOfText (fileContent (Document.tidy source)) := by
  rw [formattedBytes, textOfBytes?_eq_some_iff.mpr rfl]
  rfl

/-- `after` is `tree` with the files at some places formatted. -/
structure Formatted (tree after : FileTree) (places : List (List Name)) : Prop where
  like : after.IsLike tree
  files : ∀ place, after.root.fileAt? place =
    if place ∈ places then (tree.root.fileAt? place).map formattedBytes
    else tree.root.fileAt? place

namespace Formatted

variable {tree between after : FileTree} {place : List Name} {places : List (List Name)}
  {path : Path} {source : List Char}

theorem refl (tree : FileTree) : Formatted tree tree [] where
  like := ⟨rfl, rfl⟩
  files _ := rfl

/-- A file is formatted by leaving it, if it is as formatting would leave it. -/
theorem leave (hfile : tree.root.fileAt? place = some (bytesOfText source))
    (hsame : fileContent (Document.tidy source) = source) : Formatted tree tree [place] where
  like := ⟨rfl, rfl⟩
  files other := by
    by_cases hother : other = place
    · rw [if_pos (List.mem_singleton.mpr hother), hother, hfile, Option.map_some,
        formattedBytes_bytesOfText, hsame]
    · rw [if_neg (mt List.mem_singleton.mp hother)]

theorem put (hfile : tree.root.fileAt? place = some (bytesOfText source)) :
    Formatted tree (tree.put place (fileContent (Document.tidy source))) [place] where
  like := tree.isLike_put place _
  files other := by
    rw [FileTree.fileAt?_put]
    by_cases hother : other = place
    · rw [if_pos hother, if_pos (List.mem_singleton.mpr hother), hother, hfile, Option.map_some,
        Option.map_some, formattedBytes_bytesOfText]
    · rw [if_neg hother, if_neg (mt List.mem_singleton.mp hother)]

/-- One file after the other is formatted, each of them once. -/
theorem cons (hfirst : Formatted tree between [place]) (hlater : Formatted between after places)
    (hplace : place ∉ places) : Formatted tree after (place :: places) where
  like := ⟨hlater.like.shape.trans hfirst.like.shape,
    hlater.like.workingDirectory.trans hfirst.like.workingDirectory⟩
  files other := by
    rw [hlater.files, hfirst.files]
    by_cases hother : other = place
    · subst hother
      rw [if_neg hplace, if_pos List.mem_cons_self, if_pos List.mem_cons_self]
    · rw [if_neg (mt List.mem_singleton.mp hother)]
      simp only [List.mem_cons, hother, false_or]

theorem read_of_mem (hformatted : Formatted tree after places)
    (hresolve : tree.resolve path = .ok place) (hplace : place ∈ places)
    (hread : tree.read path = .ok source) :
    after.read path = .ok (fileContent (Document.tidy source)) := by
  rw [FileTree.read_of_resolve hresolve] at hread
  rw [FileTree.read_of_resolve ((hformatted.like.resolve_eq path).trans hresolve),
    hformatted.files, if_pos hplace, hread, Option.map_some, formattedBytes_bytesOfText]

theorem read_of_not_mem (hformatted : Formatted tree after places)
    (hresolve : tree.resolve path = .ok place) (hplace : place ∉ places)
    (hread : tree.read path = .ok source) : after.read path = .ok source := by
  rw [FileTree.read_of_resolve hresolve] at hread
  rw [FileTree.read_of_resolve ((hformatted.like.resolve_eq path).trans hresolve),
    hformatted.files, if_neg hplace, hread]

end Formatted

section

variable (input : ByteArray) {tree : FileTree} {options : Options}
  (hwrite : options.mode = .write) (htext : options.emission = .text)

include hwrite htext

/-- Writing a file formats it, also where there is nothing to change. -/
theorem exists_run_formatFile_write {path : Path} {place : List Name} {source : List Char}
    (hresolve : tree.resolve path = .ok place) (hread : tree.read path = .ok source) :
    ∃ after, (formatFile (FileTree.workspace input) options path).run tree = ({}, after) ∧
      Formatted tree after [place] := by
  have hfile := (FileTree.read_of_resolve hresolve source).mp hread
  rw [run_formatFile input options hread, hwrite, htext]
  by_cases hsame : fileContent (Document.tidy source) = source
  · refine ⟨tree, ?_, .leave hfile hsame⟩
    rw [actionFor, if_pos hsame]
    rfl
  · refine ⟨_, ?_, .put hfile⟩
    have hwritten := FileTree.write_of_fileAt? hresolve hfile (fileContent (Document.tidy source))
    rw [actionFor, if_neg hsame, carryOut, run_bind, run_write input hwritten]
    rfl

/-- A run that writes formats the files one by one. -/
theorem exists_run_formatFiles_write {files : List Path}
    (hread : ∀ path ∈ files, ∃ source, tree.read path = .ok source)
    (hnodup : (files.map tree.resolve).Nodup) :
    ∃ after places, files.map tree.resolve = places.map .ok ∧
      (formatFiles (FileTree.workspace input) options files).run tree = ({}, after) ∧
      Formatted tree after places := by
  induction files generalizing tree with
  | nil => exact ⟨tree, [], rfl, rfl, .refl tree⟩
  | cons path rest ih =>
      obtain ⟨⟨source, hsource⟩, hrest⟩ := List.forall_mem_cons.mp hread
      obtain ⟨place, hresolve, hfile⟩ := FileTree.exists_of_read hsource
      obtain ⟨between, hfirst, hformatted⟩ :=
        exists_run_formatFile_write input hwrite htext hresolve hsource
      rw [List.map_cons, List.nodup_cons, hresolve] at hnodup
      have hresolves : rest.map between.resolve = rest.map tree.resolve :=
        List.map_congr_left fun other _ => hformatted.like.resolve_eq other
      -- The other files stand at other places, so they can be read as before.
      have hreadRest : ∀ other ∈ rest, ∃ text, between.read other = .ok text := by
        intro other hother
        obtain ⟨text, htext⟩ := hrest other hother
        obtain ⟨place', hresolve', -⟩ := FileTree.exists_of_read htext
        refine ⟨text, hformatted.read_of_not_mem hresolve' ?_ htext⟩
        intro hmem
        apply hnodup.1
        rw [← List.mem_singleton.mp hmem, ← hresolve']
        exact List.mem_map_of_mem hother
      obtain ⟨after, places, hplaces, hlater, hafter⟩ := ih hreadRest (hresolves ▸ hnodup.2)
      rw [hresolves] at hplaces
      refine ⟨after, place :: places, ?_, ?_, hformatted.cons hafter ?_⟩
      · rw [List.map_cons, hresolve, hplaces, List.map_cons]
      · rw [run_formatFiles_cons input hfirst rfl, hlater]
        rfl
      · intro hmem
        apply hnodup.1
        rw [hplaces]
        exact List.mem_map_of_mem hmem

end

/-! ## Whole runs -/

theorem run_runOptions (input : ByteArray) {tree after : FileTree} {options : Options}
    {report : Report} (hpaths : options.paths ≠ [])
    (hfiles : (formatFiles (FileTree.workspace input) options
      (collected tree options.recursive options.paths)).run tree = (report, after)) :
    (runOptions (FileTree.workspace input) options).run tree = (.ofReport report, after) := by
  rw [runOptions, if_neg hpaths, run_bind, run_selectFiles, run_bind, hfiles, run_pure]

/-- Formatting changes a file unless its content is the formatted text already. -/
theorem changes_eq_false_iff {tree : FileTree} {path : Path} {source : List Char}
    (hread : tree.read path = .ok source) :
    changes tree path = false ↔ fileContent (Document.tidy source) = source := by
  rw [changes, hread, bne_eq_false_iff_eq]

namespace Formatted

variable {tree after : FileTree} {files : List Path} {places : List (List Name)}
  (hformatted : Formatted tree after places) (hplaces : files.map tree.resolve = places.map .ok)

include hformatted hplaces

/-- After the run every file that was collected holds its formatted text. -/
theorem read_of_mem_files {path : Path} {source : List Char} (hpath : path ∈ files)
    (hread : tree.read path = .ok source) :
    after.read path = .ok (fileContent (Document.tidy source)) := by
  obtain ⟨place, hplace, hresolve⟩ : ∃ place ∈ places, .ok place = tree.resolve path := by
    rw [← List.mem_map, ← hplaces]
    exact List.mem_map_of_mem hpath
  exact hformatted.read_of_mem hresolve.symm hplace hread

variable (hread : ∀ path ∈ files, ∃ source, tree.read path = .ok source)

include hread

/-- The files that have another text afterwards are those that formatting changes. -/
theorem filter_read_ne :
    (files.filter fun path => (after.read path).toOption ≠ (tree.read path).toOption) =
      files.filter (changes tree) := by
  apply List.filter_congr
  intro path hpath
  obtain ⟨source, hsource⟩ := hread path hpath
  have hsame := changes_eq_false_iff hsource
  rw [hformatted.read_of_mem_files hplaces hpath hsource, hsource, Except.toOption, Except.toOption,
    Bool.eq_iff_iff, decide_eq_true_eq, ne_eq, Option.some.injEq, ← hsame, Bool.not_eq_false]

/-- A file to which none of the changed paths leads is as it was. -/
theorem fileAt?_eq {place : List Name}
    (hplace : ∀ path ∈ files.filter (changes tree), tree.resolve path ≠ .ok place) :
    after.root.fileAt? place = tree.root.fileAt? place := by
  rw [hformatted.files]
  split
  · rename_i hmem
    obtain ⟨path, hpath, hresolve⟩ : ∃ path ∈ files, tree.resolve path = .ok place := by
      rw [← List.mem_map, hplaces]
      exact List.mem_map_of_mem hmem
    obtain ⟨source, hsource⟩ := hread path hpath
    have hsame : fileContent (Document.tidy source) = source := by
      rw [← changes_eq_false_iff hsource, ← Bool.not_eq_true]
      exact fun hchanges => hplace path (List.mem_filter.mpr ⟨hpath, hchanges⟩) hresolve
    rw [(FileTree.read_of_resolve hresolve source).mp hsource, Option.map_some,
      formattedBytes_bytesOfText, hsame]
  · rfl

end Formatted

/-- Where the paths stand for readable files, each of them once, a check changes nothing and reports,
in their order, the files that a run that writes changes, which are those that formatting changes.
Such a run leaves every file with its formatted content, and everything else as it is. -/
theorem check_agrees_with_write (input : ByteArray) {tree : FileTree} {recursive : Bool}
    {paths : List Path} (hpaths : paths ≠ [])
    (hread : ∀ path ∈ collected tree recursive paths, ∃ source, tree.read path = .ok source)
    (hnodup : ((collected tree recursive paths).map tree.resolve).Nodup) :
    let workspace := FileTree.workspace input
    let files := collected tree recursive paths
    let checked := (runOptions workspace ⟨.check, recursive, .text, paths⟩).run tree
    let written := (runOptions workspace ⟨.write, recursive, .text, paths⟩).run tree
    let changed := files.filter fun path =>
      (written.2.read path).toOption ≠ (tree.read path).toOption
    (selectFiles workspace recursive paths).run tree = (files, tree) ∧
      checked.2 = tree ∧
      checked.1 = (if changed = [] then ⟨0, [], []⟩ else .ofFailure [] (.untidy changed)) ∧
      checked.1.exitCode = (if changed = [] then 0 else 1) ∧
      written.1 = ⟨0, [], []⟩ ∧
      changed = files.filter (changes tree) ∧
      (∀ path ∈ files, ∃ source, tree.read path = .ok source ∧
        written.2.read path = .ok (fileContent (Document.tidy source))) ∧
      written.2.IsLike tree ∧
      ∀ place, (∀ path ∈ changed, tree.resolve path ≠ .ok place) →
        written.2.root.fileAt? place = tree.root.fileAt? place := by
  intro workspace files checked written changed
  have hchecked : checked = (.ofReport { untidy := files.filter (changes tree) }, tree) :=
    run_runOptions input hpaths (run_formatFiles_check input rfl rfl hread)
  obtain ⟨after, places, hplaces, hrun, hformatted⟩ : ∃ after places,
      files.map tree.resolve = places.map .ok ∧
      (formatFiles workspace ⟨.write, recursive, .text, paths⟩ files).run tree = ({}, after) ∧
      Formatted tree after places :=
    exists_run_formatFiles_write input rfl rfl hread hnodup
  have hwritten : written = (.ofReport {}, after) := run_runOptions input hpaths hrun
  have hchanged : changed = files.filter (changes tree) := by
    rw [← hformatted.filter_read_ne hplaces hread]
    simp only [changed, hwritten]
  rw [← hchanged] at hchecked
  have houtcome : checked.1 =
      (if changed = [] then ⟨0, [], []⟩ else .ofFailure [] (.untidy changed)) := by
    rw [hchecked, Outcome.ofReport]
    cases changed <;> rfl
  refine ⟨run_selectFiles input tree recursive paths, by rw [hchecked], houtcome, ?_,
    by rw [hwritten]; rfl, hchanged, ?_, ?_, ?_⟩
  · rw [houtcome]
    split <;> rfl
  · intro path hpath
    obtain ⟨source, hsource⟩ := hread path hpath
    refine ⟨source, hsource, ?_⟩
    rw [hwritten]
    exact hformatted.read_of_mem_files hplaces hpath hsource
  · rw [hwritten]
    exact hformatted.like
  · intro place hplace
    rw [hchanged] at hplace
    rw [hwritten]
    exact hformatted.fileAt?_eq hplaces hread hplace

/-- A directory with one file that is formatted, one that is not and one that is hidden, and a file
that is named apart from it and is not formatted either. -/
theorem check_agrees_with_write_of_directory :
    let input := ByteArray.empty
    let tree : FileTree :=
      { root := .directory
          [("d".toList, .directory
              [(".h".toList, .directory [("c.ck".toList, .file (bytesOfText "y ;".toList))]),
                ("a.ck".toList, .file (bytesOfText "x;\n".toList)),
                ("b.ck".toList, .file (bytesOfText "x ;".toList))]),
            ("e".toList, .file (bytesOfText "z ;".toList))]
        workingDirectory := [] }
    let paths := ["d".toList, "e".toList]
    let workspace := FileTree.workspace input
    let files := collected tree true paths
    let checked := (runOptions workspace ⟨.check, true, .text, paths⟩).run tree
    let written := (runOptions workspace ⟨.write, true, .text, paths⟩).run tree
    let changed := files.filter fun path =>
      (written.2.read path).toOption ≠ (tree.read path).toOption
    (paths ≠ [] ∧ (∀ path ∈ files, ∃ source, tree.read path = .ok source) ∧
      (files.map tree.resolve).Nodup) ∧
        files = ["d/a.ck".toList, "d/b.ck".toList, "e".toList] ∧
        changed = ["d/b.ck".toList, "e".toList] ∧
        (selectFiles workspace true paths).run tree = (files, tree) ∧
        checked.2 = tree ∧
        checked.1 = .ofFailure [] (.untidy ["d/b.ck".toList, "e".toList]) ∧
        checked.1.exitCode = 1 ∧
        written.1 = ⟨0, [], []⟩ ∧
        (∀ path ∈ files, ∃ source, tree.read path = .ok source ∧
          written.2.read path = .ok (fileContent (Document.tidy source))) ∧
        written.2.IsLike tree ∧
        ∀ place, (∀ path ∈ changed, tree.resolve path ≠ .ok place) →
          written.2.root.fileAt? place = tree.root.fileAt? place := by
  intro input tree paths workspace files checked written changed
  have hpaths : paths ≠ [] := List.cons_ne_nil _ _
  have horder : Node.inNameOrder [(".h".toList, []), ("a.ck".toList, ["d/a.ck".toList]),
      ("b.ck".toList, ["d/b.ck".toList])] = ["d/a.ck".toList, "d/b.ck".toList] := by
    rw [Node.inNameOrder, List.mergeSort_of_pairwise (by decide)]
    rfl
  have hfiles : files = ["d/a.ck".toList, "d/b.ck".toList, "e".toList] :=
    congrArg (fun found => found ++ ["e".toList]) horder
  have hresolves : files.map tree.resolve =
      [.ok ["d".toList, "a.ck".toList], .ok ["d".toList, "b.ck".toList], .ok ["e".toList]] := by
    rw [hfiles]
    rfl
  have hplace : ∀ {path : Path} {place : List Name} {source : List Char},
      tree.resolve path = .ok place → tree.root.fileAt? place = some (bytesOfText source) →
        tree.read path = .ok source :=
    fun hresolve hfile => (FileTree.read_of_resolve hresolve _).mpr hfile
  have hfirst : tree.read "d/a.ck".toList = .ok "x;\n".toList := hplace rfl rfl
  have hsecond : tree.read "d/b.ck".toList = .ok "x ;".toList := hplace rfl rfl
  have hthird : tree.read "e".toList = .ok "z ;".toList := hplace rfl rfl
  have hread : ∀ path ∈ files, ∃ source, tree.read path = .ok source := by
    simp only [hfiles, List.forall_mem_cons]
    exact ⟨⟨_, hfirst⟩, ⟨_, hsecond⟩, ⟨_, hthird⟩, by simp⟩
  have hnodup : (files.map tree.resolve).Nodup := by
    rw [hresolves]
    simp
  obtain ⟨hselected, hkept, houtcome, -, hwritten, hfilter, hcontents, hlike, helsewhere⟩ :=
    check_agrees_with_write input hpaths hread hnodup
  have htidy : changes tree "d/a.ck".toList = false :=
    (changes_eq_false_iff hfirst).mpr (by decide +kernel)
  have huntidy : changes tree "d/b.ck".toList = true ∧ changes tree "e".toList = true := by
    rw [← Bool.not_eq_false, ← Bool.not_eq_false, changes_eq_false_iff hsecond,
      changes_eq_false_iff hthird]
    decide +kernel
  have hchanged : changed = ["d/b.ck".toList, "e".toList] := by
    have hfilter : changed = files.filter (changes tree) := hfilter
    rw [hfilter, hfiles, List.filter_cons_of_neg (Bool.eq_false_iff.mp htidy),
      List.filter_cons_of_pos huntidy.1, List.filter_cons_of_pos huntidy.2, List.filter_nil]
  have hreported : checked.1 = .ofFailure [] (.untidy ["d/b.ck".toList, "e".toList]) := by
    have houtcome : checked.1 =
        (if changed = [] then ⟨0, [], []⟩ else .ofFailure [] (.untidy changed)) := houtcome
    rw [houtcome, hchanged]
    rfl
  have hexit : checked.1.exitCode = 1 := by
    rw [hreported]
    rfl
  exact ⟨⟨hpaths, hread, hnodup⟩, hfiles, hchanged, hselected, hkept, hreported, hexit, hwritten,
    hcontents, hlike, helsewhere⟩

end ChuckLayout.CommandLine
