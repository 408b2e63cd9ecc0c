import ChuckLayout.Proofs.Files.Runs

/-!
# Runs that stop

A run stops at the first file that it cannot read.  By then it has formatted the files before that one,
as a run over these alone would have, and nothing else has been touched.
-/

namespace ChuckLayout

namespace Files.FileTree

/-- A path leads to the same text, or to the same fault, while the file it leads to is as it was. -/
theorem IsLike.read_eq {tree other : FileTree} (hlike : other.IsLike tree) {path : Path}
    (hsame : ∀ place, tree.resolve path = .ok place →
      other.root.fileAt? place = tree.root.fileAt? place) : other.read path = tree.read path := by
  rw [read, read, hlike.resolve_eq]
  cases hresolve : tree.resolve path with
  | error fault => rfl
  | ok place =>
      have hfile := hsame place hresolve
      have hshape : (other.root.at? place).map Node.shape = (tree.root.at? place).map Node.shape := by
        rw [← Node.at?_shape, ← Node.at?_shape, hlike.shape]
      rw [Node.fileAt?, Node.fileAt?] at hfile
      cases hnode : tree.root.at? place with
      | none => simp_all
      | some node =>
          obtain ⟨node', hnode', hsame⟩ : ∃ node', other.root.at? place = some node' ∧
              node'.shape = node.shape := by
            rw [hnode, Option.map_some, Option.map_eq_some_iff] at hshape
            exact hshape
          rw [hnode, hnode'] at hfile
          cases node <;> cases node' <;> simp_all [Node.shape]

end Files.FileTree

namespace CommandLine

open Files (FileTree Fault Name Node Path bytesOfText)

/-- No two of the paths lead to the same place. -/
def LeadApart (tree : FileTree) (paths : List Path) : Prop :=
  paths.Pairwise fun path other =>
    ∀ place, tree.resolve path = .ok place → tree.resolve other ≠ .ok place

/-- A run over some files that has not failed goes on with the others. -/
theorem run_formatFiles_append (input : ByteArray) {options : Options} {front back : List Path}
    {tree between after : FileTree} {first later : Report}
    (hfront : (formatFiles (FileTree.workspace input) options front).run tree = (first, between))
    (hfailure : first.failure = none)
    (hback : (formatFiles (FileTree.workspace input) options back).run between = (later, after)) :
    (formatFiles (FileTree.workspace input) options (front ++ back)).run tree =
      ({ printed := first.printed ++ later.printed
         untidy := first.untidy ++ later.untidy
         failure := later.failure }, after) := by
  induction front generalizing tree first with
  | nil =>
      obtain ⟨rfl, rfl⟩ := Prod.mk.inj hfront
      exact hback
  | cons path front ih =>
      cases hstep : (formatFile (FileTree.workspace input) options path).run tree with
      | mk step middle =>
          cases hstop : step.failure with
          | some failure =>
              rw [formatFiles, run_bind, hstep, hstop] at hfront
              obtain ⟨rfl, -⟩ := Prod.mk.inj hfront
              exact absurd (hstop.symm.trans hfailure) (Option.some_ne_none _)
          | none =>
              rw [run_formatFiles_cons input hstep hstop] at hfront
              obtain ⟨rfl, hlater⟩ := Prod.mk.inj hfront
              rw [List.cons_append, run_formatFiles_cons input hstep hstop,
                ih (Prod.ext rfl hlater) hfailure]
              simp only [List.append_assoc]

/-- A file that cannot be read ends the run before anything after it is looked at. -/
theorem run_formatFiles_unreadable (input : ByteArray) (options : Options) {tree : FileTree}
    {path : Path} {fault : Fault} (hfault : tree.read path = .error fault) (later : List Path) :
    (formatFiles (FileTree.workspace input) options (path :: later)).run tree =
      ({ failure := some (.unreadable path fault) }, tree) := by
  have hread : ((FileTree.workspace input).read path).run tree = (.error fault, tree) := by
    rw [← hfault]
    rfl
  rw [formatFiles, run_bind, formatFile, run_bind, hread]
  rfl

/-- Files that lead apart are at places of their own. -/
theorem LeadApart.nodup {tree : FileTree} {files : List Path} (hapart : LeadApart tree files)
    (hread : ∀ path ∈ files, ∃ source, tree.read path = .ok source) :
    (files.map tree.resolve).Nodup := by
  rw [List.Nodup, List.pairwise_map]
  apply hapart.imp_of_mem
  intro path other hpath _ hother hsame
  obtain ⟨source, hsource⟩ := hread path hpath
  obtain ⟨place, hplace, -⟩ := FileTree.exists_of_read hsource
  exact hother place hplace (hsame ▸ hplace)

theorem toList_message_unreadable (path : Path) (fault : Fault) :
    (Failure.unreadable path fault).message.toList =
      "failed to read ".toList ++ path ++ ": ".toList ++ fault.message.toList := by
  have hmessage : (Failure.unreadable path fault).message =
      "failed to read " ++ String.ofList path ++ ": " ++ fault.message := rfl
  rw [hmessage]
  simp only [String.toList_append, String.toList_ofList]

theorem ofReport_unreadable (path : Path) (fault : Fault) :
    Outcome.ofReport { failure := some (.unreadable path fault) } =
      { exitCode := 1
        output := []
        errors := "Error: failed to read ".toList ++ path ++ ": ".toList ++
          fault.message.toList ++ ['\n'] } := by
  have houtcome : Outcome.ofReport { failure := some (.unreadable path fault) } =
      ⟨1, [], "Error: ".toList ++ (Failure.unreadable path fault).message.toList ++ ['\n'] ++ []⟩ :=
    rfl
  have hstart : "Error: failed to read ".toList = "Error: ".toList ++ "failed to read ".toList := by
    decide
  rw [houtcome, toList_message_unreadable, hstart]
  simp only [List.append_nil, List.append_assoc]

/-- A run that writes and meets a file that it cannot read: the files before it are formatted. -/
theorem exists_run_formatFiles_stopped (input : ByteArray) {tree : FileTree} {options : Options}
    (hwrite : options.mode = .write) (htext : options.emission = .text) {before later : List Path}
    {path : Path} {fault : Fault}
    (hread : ∀ other ∈ before, ∃ source, tree.read other = .ok source)
    (hfault : tree.read path = .error fault) (hapart : LeadApart tree (before ++ path :: later)) :
    ∃ after places, before.map tree.resolve = places.map .ok ∧
      (formatFiles (FileTree.workspace input) options (before ++ path :: later)).run tree =
        ({ failure := some (.unreadable path fault) }, after) ∧
      Formatted tree after places := by
  obtain ⟨hbefore, -, hcross⟩ := List.pairwise_append.mp hapart
  obtain ⟨after, places, hplaces, hrun, hformatted⟩ :=
    exists_run_formatFiles_write input hwrite htext hread (LeadApart.nodup hbefore hread)
  have hstopped : after.read path = .error fault := by
    rw [hformatted.like.read_eq, hfault]
    intro place hresolve
    exact hformatted.fileAt?_eq hplaces hread fun other hother hplace =>
      hcross other (List.mem_filter.mp hother).1 path List.mem_cons_self place hplace hresolve
  refine ⟨after, places, hplaces, ?_, hformatted⟩
  exact run_formatFiles_append input hrun rfl
    (run_formatFiles_unreadable input options hstopped later)

/-- A run that writes changes the files before the first one that it cannot read, and no other.  It
ends with the name of this file and the reason. -/
theorem write_stops_at_unreadable (input : ByteArray) {tree : FileTree}
    {arguments : List (List Char)} {options : Options}
    (harguments : readArguments arguments = .ok options) (hwrite : options.mode = .write)
    (htext : options.emission = .text) {before later : List Path} {path : Path} {fault : Fault}
    (hfiles : ((selectFiles (FileTree.workspace input) options.recursive options.paths).run tree).1 =
      before ++ path :: later)
    (hread : ∀ other ∈ before, ∃ source, tree.read other = .ok source)
    (hfault : tree.read path = .error fault) (hapart : LeadApart tree (before ++ path :: later)) :
    let stopped := (run (FileTree.workspace input) arguments).run tree
    stopped.1 =
        { exitCode := 1
          output := []
          errors := "Error: failed to read ".toList ++ path ++ ": ".toList ++
            fault.message.toList ++ ['\n'] } ∧
      (∀ other ∈ before, ∃ source, tree.read other = .ok source ∧
        stopped.2.read other = .ok (fileContent (Document.tidy source))) ∧
      (∀ other ∈ path :: later, stopped.2.read other = tree.read other ∧
        ∀ place, tree.resolve other = .ok place →
          stopped.2.root.fileAt? place = tree.root.fileAt? place) ∧
      (∀ place, (∀ other ∈ before ++ path :: later, tree.resolve other ≠ .ok place) →
        stopped.2.root.fileAt? place = tree.root.fileAt? place) ∧
      stopped.2.IsLike tree := by
  intro stopped
  rw [run_selectFiles] at hfiles
  obtain ⟨after, places, hplaces, hrun, hformatted⟩ :=
    exists_run_formatFiles_stopped input hwrite htext hread hfault hapart
  have hpaths : options.paths ≠ [] := by
    intro hnone
    rw [hnone] at hfiles
    simp [collected] at hfiles
  have hstopped : stopped = (.ofReport { failure := some (.unreadable path fault) }, after) := by
    have hrun' := run_runOptions input hpaths (hfiles ▸ hrun)
    simp only [stopped, run, harguments]
    exact hrun'
  obtain ⟨-, -, hcross⟩ := List.pairwise_append.mp hapart
  have houtside : ∀ other ∈ path :: later, ∀ place, tree.resolve other = .ok place →
      after.root.fileAt? place = tree.root.fileAt? place := fun other hother place hresolve =>
    hformatted.fileAt?_eq hplaces hread fun first hfirst hplace =>
      hcross first (List.mem_filter.mp hfirst).1 other hother place hplace hresolve
  rw [hstopped]
  refine ⟨ofReport_unreadable path fault, ?_, ?_, ?_, hformatted.like⟩
  · intro other hother
    obtain ⟨source, hsource⟩ := hread other hother
    exact ⟨source, hsource, hformatted.read_of_mem_files hplaces hother hsource⟩
  · exact fun other hother => ⟨hformatted.like.read_eq (houtside other hother), houtside other hother⟩
  · exact fun place hplace => hformatted.fileAt?_eq hplaces hread fun other hother =>
      hplace other (List.mem_append_left _ (List.mem_filter.mp hother).1)

/-- The second of three files in a directory is no text, and the argument after it leads nowhere. -/
theorem write_stops_at_unreadable_not_text :
    let input := ByteArray.empty
    let tree : FileTree :=
      { root := .directory
          [("d".toList, .directory
            [("a.ck".toList, .file (bytesOfText "x ;".toList)),
              ("b.ck".toList, .file ⟨#[0xff]⟩),
              ("c.ck".toList, .file (bytesOfText "y ;".toList))])]
        workingDirectory := [] }
    let arguments := ["-w".toList, "d".toList, "m".toList]
    let options : Options := ⟨.write, false, .text, ["d".toList, "m".toList]⟩
    let before := ["d/a.ck".toList]
    let path := "d/b.ck".toList
    let later := ["d/c.ck".toList, "m".toList]
    let fault := Fault.notText
    let stopped := (run (FileTree.workspace input) arguments).run tree
    (readArguments arguments = .ok options ∧ options.mode = .write ∧ options.emission = .text ∧
      ((selectFiles (FileTree.workspace input) options.recursive options.paths).run tree).1 =
        before ++ path :: later ∧
      (∀ other ∈ before, ∃ source, tree.read other = .ok source) ∧
      tree.read path = .error fault ∧ LeadApart tree (before ++ path :: later)) ∧
        stopped.1 =
          { exitCode := 1
            output := []
            errors := "Error: failed to read ".toList ++ path ++ ": ".toList ++
              fault.message.toList ++ ['\n'] } ∧
        (∀ other ∈ before, ∃ source, tree.read other = .ok source ∧
          stopped.2.read other = .ok (fileContent (Document.tidy source))) ∧
        (∀ other ∈ path :: later, stopped.2.read other = tree.read other ∧
          ∀ place, tree.resolve other = .ok place →
            stopped.2.root.fileAt? place = tree.root.fileAt? place) ∧
        (∀ place, (∀ other ∈ before ++ path :: later, tree.resolve other ≠ .ok place) →
          stopped.2.root.fileAt? place = tree.root.fileAt? place) ∧
        stopped.2.IsLike tree := by
  intro input tree arguments options before path later fault stopped
  have harguments : readArguments arguments = .ok options := rfl
  have horder : Node.inNameOrder [("a.ck".toList, ["d/a.ck".toList]),
      ("b.ck".toList, ["d/b.ck".toList]), ("c.ck".toList, ["d/c.ck".toList])] =
        ["d/a.ck".toList, "d/b.ck".toList, "d/c.ck".toList] := by
    rw [Node.inNameOrder, List.mergeSort_of_pairwise (by decide)]
    rfl
  have hfiles : ((selectFiles (FileTree.workspace input) options.recursive options.paths).run
      tree).1 = before ++ path :: later := by
    rw [run_selectFiles]
    exact congrArg (fun found => found ++ ["m".toList]) horder
  have hresolve : tree.resolve "d/a.ck".toList = .ok ["d".toList, "a.ck".toList] := rfl
  have hread : ∀ other ∈ before, ∃ source, tree.read other = .ok source :=
    List.forall_mem_singleton.mpr ⟨_, (FileTree.read_of_resolve hresolve "x ;".toList).mpr rfl⟩
  have hfault : tree.read path = .error fault := rfl
  have hapart : LeadApart tree (before ++ path :: later) := by
    have hpath : tree.resolve path = .ok ["d".toList, "b.ck".toList] := rfl
    have hlater : tree.resolve "d/c.ck".toList = .ok ["d".toList, "c.ck".toList] := rfl
    have hmissing : tree.resolve "m".toList = .error .missing := rfl
    simp only [LeadApart, before, later, List.singleton_append, List.pairwise_cons,
      List.forall_mem_cons, hresolve, hpath, hlater, hmissing]
    simp
  exact ⟨⟨harguments, rfl, rfl, hfiles, hread, hfault, hapart⟩,
    write_stops_at_unreadable input harguments rfl rfl hfiles hread hfault hapart⟩

end CommandLine

end ChuckLayout
