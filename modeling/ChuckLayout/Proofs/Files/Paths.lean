import ChuckLayout.Files.FileTree
import Mathlib.Data.List.Basic
import Mathlib.Tactic.Common

/-!
# Paths below a directory

The path of what stands below a directory is that of the directory with a name for each step.  The
names can be read back from the path, so each place has its own path, and the path leads there.
-/

namespace ChuckLayout.Files

/-- A name that an entry of a directory can have. -/
def IsEntryName (name : Name) : Prop :=
  name ≠ [] ∧ name ≠ ['.'] ∧ name ≠ ['.', '.'] ∧ '/' ∉ name

instance : DecidablePred IsEntryName :=
  fun name => inferInstanceAs
    (Decidable (name ≠ [] ∧ name ≠ ['.'] ∧ name ≠ ['.', '.'] ∧ '/' ∉ name))

namespace Node

variable {Content : Type}

theorem at?_append (node : Node Content) (front back : List Name) :
    node.at? (front ++ back) = (node.at? front).bind fun found => found.at? back := by
  induction front generalizing node with
  | nil => rfl
  | cons name front ih =>
      rw [List.cons_append, at?, at?, Option.bind_assoc]
      exact congrArg _ (funext fun child => ih child)

end Node

/-- The path of what stands at a place below the directory at `path`. -/
def Path.below (path : Path) (place : List Name) : Path :=
  place.foldl Path.entry path

/-! ## The names in a path -/

namespace Path

/-- The names that lead to the directory at `path`; a slash at the end adds none. -/
def folders (path : Path) : List Name :=
  if path.getLast? = some '/' then path.parts.dropLast else path.parts

variable {path : Path} {name : Name} {place other : List Name}

theorem parts_entry (hname : IsEntryName name) :
    (path.entry name).parts = path.folders ++ [name] := by
  have hown : name.splitOn '/' = [name] := List.splitOn_eq_singleton hname.2.2.2
  rw [entry, folders]
  split
  · rename_i hslash
    obtain ⟨front, rfl⟩ := List.getLast?_eq_some_iff.mp hslash
    rw [parts, parts, List.splitOn_append_cons_self, List.splitOn_nil, List.dropLast_concat,
      List.append_assoc, List.singleton_append, List.splitOn_append_cons_self, hown]
  · rw [parts, parts, List.splitOn_append_cons_self, hown]

theorem getLast?_entry (hname : IsEntryName name) : (path.entry name).getLast? ≠ some '/' := by
  obtain ⟨front, last, rfl⟩ := name.eq_nil_or_concat'.resolve_left hname.1
  have hlast : (path.entry (front ++ [last])).getLast? = some last := by
    rw [entry]
    split
    · rw [← List.append_assoc, List.getLast?_concat]
    · rw [← List.cons_append, ← List.append_assoc, List.getLast?_concat]
  rw [hlast, ne_eq, Option.some.injEq]
  rintro rfl
  exact hname.2.2.2 (by simp)

theorem folders_entry (hname : IsEntryName name) :
    (path.entry name).folders = path.folders ++ [name] := by
  rw [folders, if_neg (getLast?_entry hname), parts_entry hname]

theorem folders_below (hplace : ∀ name ∈ place, IsEntryName name) :
    (path.below place).folders = path.folders ++ place := by
  induction place generalizing path with
  | nil => exact (List.append_nil _).symm
  | cons name rest ih =>
      obtain ⟨hname, hrest⟩ := List.forall_mem_cons.mp hplace
      rw [below, List.foldl_cons, ← below, ih hrest, folders_entry hname, List.append_assoc,
        List.singleton_append]

/-- Each place has its own path. -/
theorem below_inj (hplace : ∀ name ∈ place, IsEntryName name)
    (hother : ∀ name ∈ other, IsEntryName name) (hsame : path.below place = path.below other) :
    place = other := by
  have hfolders := congrArg folders hsame
  rw [folders_below hplace, folders_below hother] at hfolders
  exact List.append_cancel_left hfolders

theorem parts_below (hplace : ∀ name ∈ place, IsEntryName name) (hne : place ≠ []) :
    (path.below place).parts = path.folders ++ place := by
  obtain ⟨front, last, rfl⟩ := place.eq_nil_or_concat'.resolve_left hne
  have hlast := hplace last (by simp)
  have hfront : ∀ name ∈ front, IsEntryName name := fun name hname => hplace name (by simp [hname])
  have hbelow : path.below (front ++ [last]) = (path.below front).entry last :=
    List.foldl_concat _ _ _ _
  rw [hbelow, parts_entry hlast, folders_below hfront, List.append_assoc]

theorem head?_below (hpath : path ≠ []) (place : List Name) :
    (path.below place).head? = path.head? := by
  induction place generalizing path with
  | nil => rfl
  | cons name rest ih =>
      have hentry : (path.entry name).head? = path.head? ∧ path.entry name ≠ [] := by
        obtain ⟨char, rest, rfl⟩ := List.exists_cons_of_ne_nil hpath
        rw [entry]
        split <;> simp
      exact (ih hentry.2).trans hentry.1

end Path

/-! ## Where paths lead -/

namespace FileTree

variable {root : Node ByteArray}

/-- The parts of a path can be followed in two parts, where a fault in the first is a fault of the
whole. -/
theorem follow_append (start front back : List Name) :
    follow root start (front ++ back) =
      match follow root start front with
      | .ok middle => follow root middle back
      | .error fault => .error fault := by
  induction front generalizing start with
  | nil => rfl
  | cons part front ih =>
      rw [List.cons_append, follow, follow]
      split <;> try rfl
      split
      · exact ih start
      split
      · exact ih start.dropLast
      split
      · exact ih (start ++ [part])
      · rfl

/-- The names of a place lead from a directory to what stands there. -/
theorem follow_place {base place : List Name} (hplace : ∀ name ∈ place, IsEntryName name)
    (hfound : (root.at? (base ++ place)).isSome) : follow root base place = .ok (base ++ place) := by
  induction place generalizing base with
  | nil => rw [List.append_nil, follow]
  | cons name rest ih =>
      obtain ⟨⟨hne, hdot, hdots, -⟩, hrest⟩ := List.forall_mem_cons.mp hplace
      obtain ⟨found, hnode⟩ := Option.isSome_iff_exists.mp hfound
      rw [Node.at?_append] at hnode
      obtain ⟨node, hbase, hnode⟩ := Option.bind_eq_some_iff.mp hnode
      obtain ⟨child, hchild, -⟩ := Option.bind_eq_some_iff.mp hnode
      cases node with
      | file bytes => exact absurd hchild.symm (Option.some_ne_none _)
      | directory entries =>
          have hlookup : (entries.lookup name).isSome := Option.isSome_iff_exists.mpr ⟨child, hchild⟩
          rw [← List.singleton_append, ← List.append_assoc] at hfound
          simp only [follow, hbase, hne, hdot, hdots, hlookup, decide_false, Bool.or_self,
            Bool.false_eq_true, if_false, if_true]
          rw [ih hrest hfound, List.append_assoc, List.singleton_append]

/-- A path to a directory leads to the same place without the slash at its end. -/
theorem follow_folders {start base : List Name} {path : Path}
    (hparts : follow root start path.parts = .ok base) :
    follow root start path.folders = .ok base := by
  rw [Path.folders]
  split
  · rename_i hslash
    obtain ⟨front, rfl⟩ := List.getLast?_eq_some_iff.mp hslash
    rw [Path.parts, List.splitOn_append_cons_self, List.splitOn_nil] at hparts ⊢
    rw [List.dropLast_concat]
    rw [follow_append] at hparts
    cases hfront : follow root start (front.splitOn '/') with
    | error fault => simp [hfront] at hparts
    | ok middle =>
        rw [hfront] at hparts
        simp only [follow] at hparts
        split at hparts
        · simpa using hparts
        · simp at hparts
        · simp at hparts
  · exact hparts

/-- The path of a place below a directory leads there. -/
theorem resolve_below {tree : FileTree} {path : Path} {base place : List Name}
    (hbase : tree.resolve path = .ok base) (hplace : ∀ name ∈ place, IsEntryName name)
    (hne : place ≠ []) (hfound : (tree.root.at? (base ++ place)).isSome) :
    tree.resolve (path.below place) = .ok (base ++ place) := by
  have hpath : path ≠ [] := by
    rintro rfl
    rw [resolve, if_pos rfl] at hbase
    cases hbase
  have hbelow : path.below place ≠ [] := by
    rw [ne_eq, ← List.head?_eq_none_iff, Path.head?_below hpath, List.head?_eq_none_iff]
    exact hpath
  have habsolute : (path.below place).isAbsolute = path.isAbsolute := by
    rw [Path.isAbsolute, Path.isAbsolute, Path.head?_below hpath]
  rw [resolve, if_neg hpath] at hbase
  rw [resolve, if_neg hbelow, habsolute, Path.parts_below hplace hne, follow_append,
    follow_folders hbase]
  exact follow_place hplace hfound

end FileTree

end ChuckLayout.Files
