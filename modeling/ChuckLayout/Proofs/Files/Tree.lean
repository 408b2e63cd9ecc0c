import ChuckLayout.Files.FileTree

/-!
# Trees whose files are written

What is in the files of a tree is seen place by place.  Giving one file a new text changes no other
file, and no path leads anywhere else because of it, for where paths lead depends on the shape of the
tree only.
-/

namespace ChuckLayout.Files

/-! ## Texts and bytes -/

/-- A text is read from its own bytes only. -/
theorem textOfBytes?_eq_some_iff {bytes : ByteArray} {text : List Char} :
    textOfBytes? bytes = some text ↔ bytes = bytesOfText text := by
  rw [textOfBytes?, bytesOfText, Option.map_eq_some_iff]
  constructor
  · rintro ⟨string, hstring, rfl⟩
    rw [String.fromUTF8?] at hstring
    split at hstring
    · rw [← Option.some.inj hstring, String.ofList_toList]
      rfl
    · exact absurd hstring.symm (Option.some_ne_none _)
  · rintro rfl
    exact ⟨String.ofList text, dif_pos (String.ofList text).isValidUTF8, String.toList_ofList⟩

namespace Node

variable {Content : Type}

/-! ## The files of a node -/

/-- What is in the file at a place, if there is one. -/
def fileAt? (node : Node Content) (place : List Name) : Option Content :=
  match node.at? place with
  | some (file content) => some content
  | _ => none

theorem fileAt?_eq_some_iff {node : Node Content} {place : List Name} {content : Content} :
    node.fileAt? place = some content ↔ node.at? place = some (file content) := by
  rw [fileAt?]
  split <;> simp_all

theorem fileAt?_cons (node : Node Content) (name : Name) (rest : List Name) :
    node.fileAt? (name :: rest) = (node.child? name).bind fun child => child.fileAt? rest := by
  rw [fileAt?, at?]
  cases node.child? name <;> rfl

theorem lookup_map_entry (change : Node Content → Node Content) (name other : Name)
    (entries : List (Name × Node Content)) :
    (entries.map fun entry => if entry.1 = name then (entry.1, change entry.2) else entry).lookup
        other = if other = name then (entries.lookup other).map change else entries.lookup other := by
  induction entries with
  | nil => simp
  | cons entry entries ih =>
      have hkey : (if entry.1 = name then (entry.1, change entry.2) else entry).1 = entry.1 := by
        split <;> rfl
      rw [List.map_cons, List.lookup_cons, List.lookup_cons, ih, hkey]
      by_cases hother : other = entry.1
      · by_cases hname : entry.1 = name <;> simp [hname, hother]
      · rw [beq_eq_false_iff_ne.mpr hother]

theorem child?_replace (content : Content) (name : Name) (rest : List Name) (node : Node Content)
    (other : Name) : (replace content (name :: rest) node).child? other =
      if other = name then (node.child? other).map (replace content rest) else node.child? other := by
  cases node with
  | file old => exact (ite_self none).symm
  | directory entries => exact lookup_map_entry (replace content rest) name other entries

/-- Writing a file changes what is in it, and in no other file. -/
theorem fileAt?_replace (content : Content) (place : List Name) (node : Node Content)
    (other : List Name) : (replace content place node).fileAt? other =
      if other = place then (node.fileAt? place).map fun _ => content else node.fileAt? other := by
  induction place generalizing node other with
  | nil =>
      cases other with
      | nil => cases node <;> rfl
      | cons name other => cases node <;> rfl
  | cons name rest ih =>
      cases other with
      | nil => cases node <;> rfl
      | cons first other =>
          rw [fileAt?_cons, child?_replace, fileAt?_cons, fileAt?_cons]
          by_cases hname : first = name
          · subst hname
            cases hchild : node.child? first with
            | none => simp
            | some child => simp [ih]
          · simp [hname]

/-! ## Shapes -/

theorem shapeEntries_eq (entries : List (Name × Node Content)) :
    shapeEntries entries = entries.map fun entry => (entry.1, entry.2.shape) := by
  induction entries with
  | nil => rfl
  | cons entry entries ih => rw [shapeEntries, ih, List.map_cons]

/-- No directory and no file comes or goes when a text is put into a file. -/
theorem shape_replace (content : Content) (place : List Name) (node : Node Content) :
    (replace content place node).shape = node.shape := by
  induction place generalizing node with
  | nil => cases node <;> rfl
  | cons name rest ih =>
      cases node with
      | file old => rfl
      | directory entries =>
          rw [replace, shape, shape, shapeEntries_eq, shapeEntries_eq, List.map_map]
          congr 1
          apply List.map_congr_left
          intro entry _
          rw [Function.comp_apply]
          split
          · rw [ih]
          · rfl

theorem lookup_shapeEntries (name : Name) (entries : List (Name × Node Content)) :
    (shapeEntries entries).lookup name = (entries.lookup name).map shape := by
  induction entries with
  | nil => rfl
  | cons entry entries ih =>
      rw [shapeEntries, List.lookup_cons, List.lookup_cons, ih]
      split <;> rfl

theorem at?_shape (node : Node Content) (place : List Name) :
    node.shape.at? place = (node.at? place).map shape := by
  induction place generalizing node with
  | nil => rfl
  | cons name rest ih =>
      have hchild : node.shape.child? name = (node.child? name).map shape := by
        cases node with
        | file content => rfl
        | directory entries => exact lookup_shapeEntries name entries
      rw [at?, at?, hchild]
      cases node.child? name with
      | none => rfl
      | some child => exact ih child

end Node

/-! ## Where paths lead -/

open Node (shape shapeEntries)

/-- Where a path leads depends on names and directories, and not on what is in the files. -/
theorem follow_eq_of_shape {root root' : Node ByteArray} (hshape : root.shape = root'.shape)
    (place parts : List Name) :
    FileTree.follow root place parts = FileTree.follow root' place parts := by
  induction parts generalizing place with
  | nil => rfl
  | cons part rest ih =>
      have hplace : (root.at? place).map shape = (root'.at? place).map shape := by
        rw [← Node.at?_shape, ← Node.at?_shape, hshape]
      rw [FileTree.follow, FileTree.follow]
      -- A step asks whether a directory stands at the place, and which names it has.
      cases hnode : root.at? place with
      | none =>
          rw [hnode, Option.map_none, eq_comm, Option.map_eq_none_iff] at hplace
          rw [hplace]
      | some node =>
          obtain ⟨node', hnode', hsame⟩ : ∃ node', root'.at? place = some node' ∧
              node'.shape = node.shape := by
            rw [hnode, Option.map_some, eq_comm, Option.map_eq_some_iff] at hplace
            exact hplace
          rw [hnode']
          cases node with
          | file bytes =>
              cases node' with
              | file bytes' => rfl
              | directory entries' => cases hsame
          | directory entries =>
              cases node' with
              | file bytes' => cases hsame
              | directory entries' =>
                  have hentries : shapeEntries entries' = shapeEntries entries := by
                    simpa [shape] using hsame
                  have hlookup : (entries.lookup part).isSome = (entries'.lookup part).isSome := by
                    rw [← Option.isSome_map (f := shape), ← Node.lookup_shapeEntries, ← hentries,
                      Node.lookup_shapeEntries, Option.isSome_map]
                  simp only [ih, hlookup]

namespace FileTree

/-- The trees have the same directories and files, whatever is in the files. -/
structure IsLike (tree other : FileTree) : Prop where
  shape : tree.root.shape = other.root.shape
  workingDirectory : tree.workingDirectory = other.workingDirectory

variable {tree other : FileTree}

theorem IsLike.resolve_eq (hlike : tree.IsLike other) (path : Path) :
    tree.resolve path = other.resolve path := by
  rw [resolve, resolve, hlike.workingDirectory, follow_eq_of_shape hlike.shape]

/-! ## Reading and writing -/

/-- A file reads as a text exactly if it holds the bytes of that text. -/
theorem read_of_resolve {path : Path} {place : List Name} (hresolve : tree.resolve path = .ok place)
    (text : List Char) : tree.read path = .ok text ↔
      tree.root.fileAt? place = some (bytesOfText text) := by
  simp only [read, hresolve, Node.fileAt?]
  cases tree.root.at? place with
  | none => simp
  | some node =>
      cases node with
      | directory entries => simp
      | file bytes =>
          simp only [Option.some.injEq, ← textOfBytes?_eq_some_iff]
          cases textOfBytes? bytes <;> simp

theorem exists_of_read {path : Path} {text : List Char} (hread : tree.read path = .ok text) :
    ∃ place, tree.resolve path = .ok place ∧
      tree.root.fileAt? place = some (bytesOfText text) := by
  cases hresolve : tree.resolve path with
  | error fault => simp [read, hresolve] at hread
  | ok place => exact ⟨place, rfl, (read_of_resolve hresolve text).mp hread⟩

def put (tree : FileTree) (place : List Name) (text : List Char) : FileTree :=
  { tree with root := tree.root.replace (bytesOfText text) place }

theorem isLike_put (tree : FileTree) (place : List Name) (text : List Char) :
    (tree.put place text).IsLike tree :=
  ⟨Node.shape_replace _ place tree.root, rfl⟩

theorem fileAt?_put (tree : FileTree) (place : List Name) (text : List Char) (other : List Name) :
    (tree.put place text).root.fileAt? other =
      if other = place then (tree.root.fileAt? place).map fun _ => bytesOfText text
      else tree.root.fileAt? other :=
  Node.fileAt?_replace _ place tree.root other

theorem write_of_fileAt? {path : Path} {place : List Name} {bytes : ByteArray}
    (hresolve : tree.resolve path = .ok place) (hfile : tree.root.fileAt? place = some bytes)
    (text : List Char) : tree.write path text = .ok (tree.put place text) := by
  simp only [write, hresolve, Node.fileAt?_eq_some_iff.mp hfile, put]

end FileTree

end ChuckLayout.Files
