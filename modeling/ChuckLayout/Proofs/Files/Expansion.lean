import ChuckLayout.Proofs.Files.Paths
import ChuckLayout.Proofs.Files.Runs
import ChuckLayout.Proofs.Text.Bytes

/-!
# What directories stand for

A directory that is given as an argument stands for the source files in it, and for those below it if
the search goes deep.  What is found at each entry is put in the order of the names, so the whole is in
the order of places, name by name; and each path that is found leads to the file that it stands for.
-/

namespace ChuckLayout

namespace Files

/-! ## The order of names -/

theorem Name.notAfter_iff {left right : Name} : Name.notAfter left right ↔ ¬right < left := by
  induction left generalizing right with
  | nil => exact iff_of_true rfl (List.not_lt_nil _)
  | cons char left ih =>
      cases right with
      | nil => exact iff_of_false Bool.noConfusion (not_not_intro (List.nil_lt_cons _ _))
      | cons first right =>
          rw [Name.notAfter, Bool.or_eq_true, Bool.and_eq_true, ih, decide_eq_true_eq, beq_iff_eq,
            List.not_lt, List.not_lt, List.cons_le_cons_iff]
          rfl

/-- Distinct names are put in the order of their bytes. -/
theorem pairwise_mergeSort_byName {A : Type} {found : List (Name × A)}
    (hnodup : (found.map Prod.fst).Nodup) :
    (found.mergeSort fun left right => left.1.notAfter right.1).Pairwise
      fun left right => Units.bytes left.1 < Units.bytes right.1 := by
  have hsorted : (found.mergeSort fun left right => left.1.notAfter right.1).Pairwise
      fun left right => left.1.notAfter right.1 := by
    apply List.pairwise_mergeSort
    · intro left middle right hleft hright
      rw [Name.notAfter_iff, List.not_lt] at hleft hright ⊢
      exact List.le_trans hleft hright
    · intro left right
      rw [Bool.or_eq_true, Name.notAfter_iff, Name.notAfter_iff, List.not_lt, List.not_lt]
      exact List.le_total left.1 right.1
  have hdistinct : (found.mergeSort fun left right => left.1.notAfter right.1).Pairwise
      fun left right => left.1 ≠ right.1 := by
    rw [← List.pairwise_map]
    exact ((List.mergeSort_perm found _).map Prod.fst).nodup_iff.mpr hnodup
  refine (hsorted.and hdistinct).imp fun ⟨hle, hne⟩ => Units.bytes_lt_of_lt ?_
  by_contra hnot
  exact hne (List.le_antisymm (List.not_lt.mp (Name.notAfter_iff.mp hle)) (List.not_lt.mp hnot))

/-- Places are ordered name by name, and names by their bytes. -/
def IsBefore (place other : List Name) : Prop :=
  place.map Units.bytes < other.map Units.bytes

theorem isBefore_cons_of_lt {name other : Name} (hless : Units.bytes name < Units.bytes other)
    (rest others : List Name) : IsBefore (name :: rest) (other :: others) :=
  List.cons_lt_cons_iff.mpr (Or.inl hless)

theorem IsBefore.cons {rest others : List Name} (hbefore : IsBefore rest others) (name : Name) :
    IsBefore (name :: rest) (name :: others) :=
  List.cons_lt_cons_iff.mpr (Or.inr ⟨rfl, hbefore⟩)

/-! ## Lists of places -/

/-- `found` are the paths of the places that have a property, each place once and in their order. -/
def ListsPlaces (path : Path) (holds : List Name → Prop) (found : List Path) : Prop :=
  ∃ places : List (List Name), found = places.map path.below ∧ places.Pairwise IsBefore ∧
    ∀ place, place ∈ places ↔ holds place

/-- Listings of the entries, put behind each other in the order of their names, list the places of
the directory. -/
theorem listsPlaces_flatMap {path : Path} {holds : List Name → Prop}
    {found : List (Name × List Path)}
    (hsorted : found.Pairwise fun left right => Units.bytes left.1 < Units.bytes right.1)
    (hfound : ∀ entry ∈ found,
      ListsPlaces (path.entry entry.1) (fun rest => holds (entry.1 :: rest)) entry.2) :
    ListsPlaces path
      (fun place => ∃ name rest, place = name :: rest ∧ name ∈ found.map Prod.fst ∧ holds place)
      (found.flatMap Prod.snd) := by
  induction found with
  | nil => exact ⟨[], rfl, List.Pairwise.nil, by simp⟩
  | cons entry found ih =>
      obtain ⟨hfirst, hsorted⟩ := List.pairwise_cons.mp hsorted
      obtain ⟨hentry, hfound⟩ := List.forall_mem_cons.mp hfound
      obtain ⟨front, hfront, hfrontSorted, hmemFront⟩ := hentry
      obtain ⟨back, hback, hbackSorted, hmemBack⟩ := ih hsorted hfound
      refine ⟨front.map (entry.1 :: ·) ++ back, ?_, ?_, ?_⟩
      · rw [List.flatMap_cons, hfront, hback, List.map_append, List.map_map]
        rfl
      · rw [List.pairwise_append]
        refine ⟨?_, hbackSorted, ?_⟩
        · rw [List.pairwise_map]
          exact hfrontSorted.imp fun hbefore => hbefore.cons entry.1
        · intro place hplace other hother
          obtain ⟨rest, -, rfl⟩ := List.mem_map.mp hplace
          obtain ⟨name, others, rfl, hname, -⟩ := (hmemBack other).mp hother
          obtain ⟨later, hlater, rfl⟩ := List.mem_map.mp hname
          exact isBefore_cons_of_lt (hfirst later hlater) rest others
      · intro place
        rw [List.mem_append, List.mem_map, hmemBack]
        constructor
        · rintro (⟨rest, hrest, rfl⟩ | ⟨name, rest, rfl, hname, hholds⟩)
          · exact ⟨entry.1, rest, rfl, List.mem_cons_self, (hmemFront rest).mp hrest⟩
          · exact ⟨name, rest, rfl, List.mem_cons_of_mem _ hname, hholds⟩
        · rintro ⟨name, rest, rfl, hname, hholds⟩
          rcases List.mem_cons.mp hname with rfl | hlater
          · exact Or.inl ⟨rest, (hmemFront rest).mpr hholds, rfl⟩
          · exact Or.inr ⟨name, rest, rfl, hlater, hholds⟩

/-- Sorting by name puts the listings of entries into the order of their places. -/
theorem listsPlaces_inNameOrder {path : Path} {holds : List Name → Prop}
    {found : List (Name × List Path)} (hnodup : (found.map Prod.fst).Nodup)
    (hfound : ∀ entry ∈ found,
      ListsPlaces (path.entry entry.1) (fun rest => holds (entry.1 :: rest)) entry.2)
    (hholds : ∀ place, holds place → ∃ name rest, place = name :: rest ∧ name ∈ found.map Prod.fst) :
    ListsPlaces path holds (Node.inNameOrder found) := by
  have hperm := List.mergeSort_perm found fun left right => left.1.notAfter right.1
  obtain ⟨places, hplaces, hsorted, hmem⟩ :=
    listsPlaces_flatMap (pairwise_mergeSort_byName hnodup)
      fun entry hentry => hfound entry (hperm.mem_iff.mp hentry)
  refine ⟨places, hplaces, hsorted, fun place => (hmem place).trans ⟨?_, ?_⟩⟩
  · rintro ⟨-, -, -, -, hplace⟩
    exact hplace
  · intro hplace
    obtain ⟨name, rest, heq, hname⟩ := hholds place hplace
    exact ⟨name, rest, heq, ((hperm.map Prod.fst).mem_iff).mpr hname, hplace⟩

/-! ## Source files below a directory -/

theorem isSourceName_iff {name : Name} :
    isSourceName name ↔ ∃ stem, stem ≠ [] ∧ name = stem ++ ".ck".toList := by
  rw [isSourceName, Bool.and_eq_true, decide_eq_true_eq, List.isSuffixOf_iff_suffix]
  constructor
  · rintro ⟨hlength, stem, rfl⟩
    refine ⟨stem, ?_, rfl⟩
    rintro rfl
    exact absurd hlength (by decide)
  · rintro ⟨stem, hne, rfl⟩
    refine ⟨?_, List.suffix_append _ _⟩
    have hpos := List.length_pos_iff.mpr hne
    rw [List.length_append]
    exact Nat.lt_add_of_pos_left hpos

theorem isHidden_eq_false_iff {name : Name} : isHidden name = false ↔ name.head? ≠ some '.' := by
  rw [isHidden, beq_eq_false_iff_ne]

namespace Node

variable {Content : Type}

/-- The entries of every directory have proper names, and each of them another one. -/
inductive IsWellNamed : Node Content → Prop
  | file (content : Content) : IsWellNamed (file content)
  | directory {entries : List (Name × Node Content)}
      (names : ∀ entry ∈ entries, IsEntryName entry.1) (nodup : (entries.map Prod.fst).Nodup)
      (nodes : ∀ entry ∈ entries, entry.2.IsWellNamed) : IsWellNamed (directory entries)

/-- A search finds the file at this place: its name is a stem with the ending of source files, and
only a deep search leaves the directory, on a way without hidden directories. -/
structure IsSourcePlace (recursive : Bool) (node : Node Content) (place : List Name) : Prop where
  isFile : ∃ content, node.at? place = some (file content)
  name : ∃ stem, stem ≠ [] ∧ place.getLast? = some (stem ++ ".ck".toList)
  way : place.dropLast = [] ∨
    recursive = true ∧ ∀ folder ∈ place.dropLast, folder.head? ≠ some '.'

theorem lookup_of_mem {entries : List (Name × Node Content)} (hnodup : (entries.map Prod.fst).Nodup)
    {entry : Name × Node Content} (hentry : entry ∈ entries) :
    entries.lookup entry.1 = some entry.2 := by
  obtain ⟨front, back, rfl⟩ := List.append_of_mem hentry
  rw [List.lookup_eq_some_iff]
  refine ⟨front, back, rfl, fun other hother => ?_⟩
  rw [List.map_append, List.map_cons, List.nodup_append] at hnodup
  rw [bne_iff_ne]
  exact (hnodup.2.2 other.1 (List.mem_map_of_mem hother) entry.1 List.mem_cons_self).symm

theorem IsSourcePlace.ne_nil {recursive : Bool} {node : Node Content} {place : List Name}
    (hsource : node.IsSourcePlace recursive place) : place ≠ [] := by
  rintro rfl
  obtain ⟨stem, -, hlast⟩ := hsource.name
  exact absurd hlast.symm (Option.some_ne_none _)

section

variable {recursive : Bool} {entries : List (Name × Node Content)} {name : Name}
  {child : Node Content}
  (hchild : entries.lookup name = some child)

include hchild

theorem at?_directory (rest : List Name) :
    (directory entries).at? (name :: rest) = child.at? rest := by
  rw [at?, child?, hchild, Option.bind_some]

theorem isSourcePlace_singleton : (directory entries).IsSourcePlace recursive [name] ↔
    (∃ content, child = file content) ∧ isSourceName name := by
  have hat : (directory entries).at? [name] = some child := at?_directory hchild []
  rw [isSourceName_iff]
  constructor
  · rintro ⟨⟨content, hfile⟩, ⟨stem, hstem, hname⟩, -⟩
    rw [hat] at hfile
    exact ⟨⟨content, Option.some.inj hfile⟩, stem, hstem, Option.some.inj hname⟩
  · rintro ⟨⟨content, rfl⟩, stem, hstem, rfl⟩
    exact ⟨⟨content, hat⟩, ⟨stem, hstem, rfl⟩, Or.inl rfl⟩

/-- A deep search goes into every directory that is not hidden, and finds there what it finds in it
alone. -/
theorem isSourcePlace_cons {rest : List Name} (hrest : rest ≠ []) :
    (directory entries).IsSourcePlace recursive (name :: rest) ↔
      recursive = true ∧ isHidden name = false ∧ child.IsSourcePlace recursive rest := by
  obtain ⟨next, rest, rfl⟩ := List.exists_cons_of_ne_nil hrest
  rw [isHidden_eq_false_iff]
  constructor
  · rintro ⟨hfile, hname, hway⟩
    rw [at?_directory hchild] at hfile
    rw [List.getLast?_cons_cons] at hname
    rw [List.dropLast_cons_cons] at hway
    obtain ⟨hdeep, hfolders⟩ := hway.resolve_left (List.cons_ne_nil _ _)
    obtain ⟨hshown, hfolders⟩ := List.forall_mem_cons.mp hfolders
    exact ⟨hdeep, hshown, hfile, hname, Or.inr ⟨hdeep, hfolders⟩⟩
  · rintro ⟨hdeep, hshown, hfile, hname, hway⟩
    refine ⟨by rwa [at?_directory hchild], by rwa [List.getLast?_cons_cons], Or.inr ⟨hdeep, ?_⟩⟩
    rw [List.dropLast_cons_cons, List.forall_mem_cons]
    refine ⟨hshown, ?_⟩
    rcases hway with hnone | ⟨-, hfolders⟩
    · simp [hnone]
    · exact hfolders

end

theorem isSourcePlace_cons_file (recursive : Bool) {entries : List (Name × Node Content)} {name : Name}
    {content : Content} (hchild : entries.lookup name = some (file content)) (rest : List Name) :
    (directory entries).IsSourcePlace recursive (name :: rest) ↔ rest = [] ∧ isSourceName name := by
  by_cases hrest : rest = []
  · rw [hrest, isSourcePlace_singleton hchild]
    simp
  · rw [isSourcePlace_cons hchild hrest]
    refine iff_of_false ?_ fun hfound => hrest hfound.1
    rintro ⟨-, -, ⟨other, hfile⟩, -⟩
    obtain ⟨next, rest, rfl⟩ := List.exists_cons_of_ne_nil hrest
    exact absurd hfile.symm (Option.some_ne_none _)

theorem isSourcePlace_cons_directory (recursive : Bool) {entries inner : List (Name × Node Content)}
    {name : Name} (hchild : entries.lookup name = some (directory inner)) (rest : List Name) :
    (directory entries).IsSourcePlace recursive (name :: rest) ↔
      (directory inner).IsSourcePlace recursive rest ∧ (recursive && !isHidden name) := by
  by_cases hrest : rest = []
  · rw [hrest, isSourcePlace_singleton hchild]
    refine iff_of_false ?_ fun hfound => hfound.1.ne_nil rfl
    rintro ⟨⟨content, hfile⟩, -⟩
    cases hfile
  · rw [isSourcePlace_cons hchild hrest, Bool.and_eq_true, Bool.not_eq_true']
    tauto

theorem sourceFilesByName_eq (recursive : Bool) (path : Path) (entries : List (Name × Node Content)) :
    sourceFilesByName recursive path entries = entries.map fun entry =>
      (entry.1, sourceFilesAt recursive (path.entry entry.1) entry.1 entry.2) := by
  induction entries with
  | nil => rfl
  | cons entry entries ih => rw [sourceFilesByName, ih, List.map_cons]

/-- What is found at an entry, once it is known what is found in it as a directory. -/
theorem listsPlaces_sourceFilesAt {recursive : Bool} {entries : List (Name × Node Content)}
    {name : Name} {child : Node Content} (hchild : entries.lookup name = some child) (path : Path)
    (hinner : ∀ inner, child = directory inner →
      ListsPlaces path (child.IsSourcePlace recursive)
        (inNameOrder (sourceFilesByName recursive path inner))) :
    ListsPlaces path (fun rest => (directory entries).IsSourcePlace recursive (name :: rest))
      (sourceFilesAt recursive path name child) := by
  cases child with
  | file content =>
      have hholds := isSourcePlace_cons_file recursive hchild
      rw [sourceFilesAt]
      split
      · rename_i hname
        refine ⟨[[]], rfl, List.pairwise_singleton _ _, fun rest => ?_⟩
        exact List.mem_singleton.trans ((hholds rest).trans (and_iff_left hname)).symm
      · rename_i hname
        refine ⟨[], rfl, List.Pairwise.nil, fun rest => ?_⟩
        exact iff_of_false List.not_mem_nil fun hfound => hname ((hholds rest).mp hfound).2
  | directory inner =>
      have hholds := isSourcePlace_cons_directory recursive hchild
      rw [sourceFilesAt]
      split
      · rename_i hgoes
        obtain ⟨places, hplaces, hsorted, hmem⟩ := hinner inner rfl
        refine ⟨places, hplaces, hsorted, fun rest => ?_⟩
        exact (hmem rest).trans ((hholds rest).trans (and_iff_left hgoes)).symm
      · rename_i hgoes
        refine ⟨[], rfl, List.Pairwise.nil, fun rest => ?_⟩
        exact iff_of_false List.not_mem_nil fun hfound => hgoes ((hholds rest).mp hfound).2

/-- What is found in a directory are its source files, each once and in the order of their places. -/
theorem IsWellNamed.listsPlaces {node : Node Content} (hnamed : node.IsWellNamed) (recursive : Bool)
    (path : Path) : ∀ entries, node = .directory entries →
      ListsPlaces path (node.IsSourcePlace recursive)
        (inNameOrder (sourceFilesByName recursive path entries)) := by
  induction hnamed generalizing path with
  | file content =>
      intro entries hfile
      cases hfile
  | @directory entries names nodup nodes ih =>
      rintro _ ⟨rfl⟩
      have hkeys : (sourceFilesByName recursive path entries).map Prod.fst = entries.map Prod.fst := by
        rw [sourceFilesByName_eq, List.map_map]
        rfl
      apply listsPlaces_inNameOrder (hkeys ▸ nodup)
      · rw [sourceFilesByName_eq, List.forall_mem_map]
        intro entry hentry
        exact listsPlaces_sourceFilesAt (lookup_of_mem nodup hentry) _
          (ih entry hentry (path.entry entry.1))
      · intro place hsource
        obtain ⟨name, rest, rfl⟩ := List.exists_cons_of_ne_nil hsource.ne_nil
        refine ⟨name, rest, rfl, ?_⟩
        obtain ⟨content, hfile⟩ := hsource.isFile
        obtain ⟨child, hchild, -⟩ := Option.bind_eq_some_iff.mp hfile
        obtain ⟨front, back, hentries, -⟩ := List.lookup_eq_some_iff.mp hchild
        rw [hkeys, hentries]
        simp

/-! ## Shapes -/

theorem IsWellNamed.shape {node : Node Content} (hnamed : node.IsWellNamed) :
    node.shape.IsWellNamed := by
  induction hnamed with
  | file content => exact .file ()
  | @directory entries names nodup nodes ih =>
      rw [Node.shape, shapeEntries_eq]
      refine .directory ?_ ?_ ?_
      · exact List.forall_mem_map.mpr names
      · rw [List.map_map]
        exact nodup
      · exact List.forall_mem_map.mpr ih

theorem isSourcePlace_shape {recursive : Bool} {node : Node Content} {place : List Name} :
    node.shape.IsSourcePlace recursive place ↔ node.IsSourcePlace recursive place := by
  have hfile : (∃ content, node.shape.at? place = some (file content)) ↔
      ∃ content, node.at? place = some (file content) := by
    rw [at?_shape]
    cases node.at? place with
    | none => simp
    | some found => cases found <;> simp [shape]
  exact ⟨fun hsource => ⟨hfile.mp hsource.isFile, hsource.name, hsource.way⟩,
    fun hsource => ⟨hfile.mpr hsource.isFile, hsource.name, hsource.way⟩⟩

/-- What stands below a well named directory is well named, and so are the names that lead there. -/
theorem IsWellNamed.of_at? {node found : Node Content} (hnamed : node.IsWellNamed) {place : List Name}
    (hfound : node.at? place = some found) :
    found.IsWellNamed ∧ ∀ name ∈ place, IsEntryName name := by
  induction place generalizing node with
  | nil =>
      rw [at?, Option.some.injEq] at hfound
      exact ⟨hfound ▸ hnamed, by simp⟩
  | cons name rest ih =>
      obtain ⟨child, hchild, hrest⟩ := Option.bind_eq_some_iff.mp hfound
      cases hnamed with
      | file content => exact absurd hchild.symm (Option.some_ne_none _)
      | @directory entries names nodup nodes =>
          obtain ⟨front, back, rfl, -⟩ := List.lookup_eq_some_iff.mp hchild
          obtain ⟨hfound, hplace⟩ := ih (nodes (name, child) (by simp)) hrest
          exact ⟨hfound, List.forall_mem_cons.mpr ⟨names (name, child) (by simp), hplace⟩⟩

end Node

end Files

namespace CommandLine

open Files

/-- What arguments stand for: a directory for the source files in it, in the order of their places and
each under its own path, and any other argument for itself. -/
theorem selectFiles_finds_sources (input : ByteArray) {tree : FileTree}
    (hnamed : tree.root.IsWellNamed) (recursive : Bool) :
    let select := fun paths => (selectFiles (FileTree.workspace input) recursive paths).run tree
    (∀ paths, select paths = (paths.flatMap fun path => (select [path]).1, tree)) ∧
      (∀ path, (∀ entries, tree.node? path ≠ some (.directory entries)) →
        (select [path]).1 = [path]) ∧
      ∀ path base entries, tree.resolve path = .ok base →
        tree.root.at? base = some (.directory entries) →
          ∃ places : List (List Name), (select [path]).1 = places.map path.below ∧
            (select [path]).1.Nodup ∧
            places.Pairwise IsBefore ∧
            (∀ place, place ∈ places ↔ (Node.directory entries).IsSourcePlace recursive place) ∧
            ∀ place ∈ places, tree.resolve (path.below place) = .ok (base ++ place) := by
  intro select
  have hselect : ∀ paths, select paths = (collected tree recursive paths, tree) :=
    run_selectFiles input tree recursive
  have hone : ∀ path, (select [path]).1 =
      Node.expand recursive path ((tree.node? path).map Node.shape) := by
    intro path
    rw [hselect, collected, List.flatMap_singleton]
  refine ⟨fun paths => ?_, fun path hother => ?_, fun path base entries hbase hdirectory => ?_⟩
  · rw [hselect, collected]
    simp only [hone]
  · rw [hone]
    cases hnode : tree.node? path with
    | none => rfl
    | some node =>
        cases node with
        | file bytes => rfl
        | directory entries => exact absurd hnode (hother entries)
  · have hnode : tree.node? path = some (.directory entries) := by
      rw [FileTree.node?, hbase]
      exact hdirectory
    have hinner := (hnamed.of_at? hdirectory).1
    obtain ⟨places, hplaces, hsorted, hmem⟩ :=
      hinner.shape.listsPlaces recursive path (Node.shapeEntries entries) rfl
    have hmem : ∀ place, place ∈ places ↔ (Node.directory entries).IsSourcePlace recursive place :=
      fun place => (hmem place).trans Node.isSourcePlace_shape
    have hnames : ∀ place ∈ places, ∀ name ∈ place, IsEntryName name := by
      intro place hplace
      obtain ⟨content, hfile⟩ := ((hmem place).mp hplace).isFile
      exact (hinner.of_at? hfile).2
    have hfound : (select [path]).1 = places.map path.below := by
      rw [hone, hnode]
      exact hplaces
    refine ⟨places, hfound, ?_, hsorted, hmem, fun place hplace => ?_⟩
    · rw [hfound, List.Nodup, List.pairwise_map]
      apply hsorted.imp_of_mem
      intro place other hplace hother hbefore hsame
      rw [Path.below_inj (hnames place hplace) (hnames other hother) hsame] at hbefore
      exact List.lt_irrefl _ hbefore
    · have hsource := (hmem place).mp hplace
      obtain ⟨content, hfile⟩ := hsource.isFile
      refine FileTree.resolve_below hbase (hnames place hplace) hsource.ne_nil ?_
      rw [Node.at?_append, hdirectory, Option.bind_some, hfile]
      rfl

/-- The files of a directory come before one whose name goes on from its own, though a dot comes
before a slash.  A directory may be named as a source file, a name may be all ending, and a file may be
hidden. -/
theorem selectFiles_finds_sources_in_name_order :
    let input := ByteArray.empty
    let bytes := bytesOfText "x ;".toList
    let entries : List (Name × Node ByteArray) :=
      [(".h".toList, .directory [("c.ck".toList, .file bytes)]),
        ("a.ck".toList, .file bytes),
        ("a".toList, .directory
          [("z.ck".toList, .directory [("é.ck".toList, .file bytes), (".ck".toList, .file bytes)])]),
        (".b.ck".toList, .file bytes)]
    let tree : FileTree :=
      { root := .directory [("d".toList, .directory entries)], workingDirectory := [] }
    let path : Path := "d/".toList
    let base : List Name := ["d".toList]
    let select := fun paths => (selectFiles (FileTree.workspace input) true paths).run tree
    (tree.root.IsWellNamed ∧ tree.resolve path = .ok base ∧
      tree.root.at? base = some (.directory entries)) ∧
        (∀ paths, select paths = (paths.flatMap fun path => (select [path]).1, tree)) ∧
        (∀ path, (∀ entries, tree.node? path ≠ some (.directory entries)) →
          (select [path]).1 = [path]) ∧
        ∃ places : List (List Name), (select [path]).1 = places.map path.below ∧
          (select [path]).1.Nodup ∧
          places.Pairwise IsBefore ∧
          (∀ place, place ∈ places ↔ (Node.directory entries).IsSourcePlace true place) ∧
          ∀ place ∈ places, tree.resolve (path.below place) = .ok (base ++ place) := by
  intro input bytes entries tree path base select
  have hfile : (Node.file bytes).IsWellNamed := .file bytes
  have hnamed : tree.root.IsWellNamed := by
    refine .directory (by decide) (by decide) (List.forall_mem_singleton.mpr ?_)
    refine .directory (by decide) (by decide) ?_
    simp only [entries, List.forall_mem_cons]
    refine ⟨.directory (by decide) (by decide) (List.forall_mem_singleton.mpr hfile), hfile, ?_, hfile,
      List.forall_mem_nil _⟩
    refine .directory (by decide) (by decide) (List.forall_mem_singleton.mpr ?_)
    refine .directory (by decide) (by decide) ?_
    simpa only [List.forall_mem_cons] using ⟨hfile, hfile, List.forall_mem_nil _⟩
  have hbase : tree.resolve path = .ok base := rfl
  have hdirectory : tree.root.at? base = some (.directory entries) := rfl
  obtain ⟨happend, hother, hfound⟩ := selectFiles_finds_sources input hnamed true
  exact ⟨⟨hnamed, hbase, hdirectory⟩, happend, hother, hfound path base entries hbase hdirectory⟩

end CommandLine

end ChuckLayout
