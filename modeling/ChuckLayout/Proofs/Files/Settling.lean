import ChuckLayout.Proofs.Files.Runs
import ChuckLayout.Proofs.Stability.Surround

/-!
# Files that are checked after they are written

A formatted source begins and ends with no blank, and its file ends in one line feed more.  This line
feed, as any around a source, is not seen by the formatter.  So a check of a file that has just been
written says whether formatting settles.
-/

namespace ChuckLayout

open Files (FileTree Path)

namespace CommandLine

/-- The line break at the end of a file makes no difference to its formatting. -/
theorem tidy_fileContent (formatted : List Char) :
    Document.tidy (fileContent formatted) = Document.tidy formatted := by
  rw [fileContent]
  split
  · rename_i hnone
    rw [hnone]
  · exact tidy_surround 0 1 formatted

theorem dropLast_fileContent (formatted : List Char) :
    (fileContent formatted).dropLast = formatted := by
  rw [fileContent]
  split
  · rename_i hnone
    rw [hnone, List.dropLast_nil]
  · exact List.dropLast_concat

theorem fileContent_inj {first second : List Char} :
    fileContent first = fileContent second ↔ first = second := by
  constructor
  · intro hsame
    rw [← dropLast_fileContent first, hsame, dropLast_fileContent]
  · exact congrArg fileContent

/-- A formatted file is empty, or ends in one line break and no more. -/
theorem fileContent_tidy_cases (text : List Char) :
    fileContent (Document.tidy text) = [] ∨ ∃ body last,
      fileContent (Document.tidy text) = body ++ [last, '\n'] ∧ last ≠ '\n' := by
  rcases List.eq_nil_or_concat (Document.tidy text) with hnone | ⟨body, last, htext⟩
  · exact Or.inl (by rw [hnone]; rfl)
  · refine Or.inr ⟨body, last, ?_, ?_⟩
    · rw [htext, fileContent, if_neg (by simp)]
      simp
    · rintro rfl
      have hlast : Blank.isBlank '\n' = false := not_isBlank_of_tidy (Or.inr (by rw [htext]; simp))
      exact absurd hlast (by decide)

/-- A readable file stands for itself. -/
theorem collected_of_read {tree : FileTree} {path : Path} {text : List Char}
    (hread : tree.read path = .ok text) (recursive : Bool) :
    collected tree recursive [path] = [path] := by
  obtain ⟨place, hresolve, hfile⟩ := FileTree.exists_of_read hread
  have hnode : tree.node? path = some (.file (Files.bytesOfText text)) := by
    simp only [FileTree.node?, hresolve, Files.Node.fileAt?_eq_some_iff.mp hfile]
  rw [collected, List.flatMap_singleton, hnode]
  rfl

section

variable (input : ByteArray) {tree : FileTree} {path : Path} {text : List Char}
  (hread : tree.read path = .ok text) (recursive : Bool)

include hread

theorem exists_of_mem_collected :
    ∀ other ∈ collected tree recursive [path], ∃ source, tree.read other = .ok source := by
  rw [collected_of_read hread]
  intro other hother
  exact ⟨text, List.mem_singleton.mp hother ▸ hread⟩

/-- Writing one file that can be read ends well, and leaves its formatted text in it. -/
theorem exists_write_file : ∃ after,
    (runOptions (FileTree.workspace input) ⟨.write, recursive, .text, [path]⟩).run tree =
      (⟨0, [], []⟩, after) ∧ after.read path = .ok (fileContent (Document.tidy text)) := by
  have hnodup : ((collected tree recursive [path]).map tree.resolve).Nodup := by
    rw [collected_of_read hread]
    exact List.pairwise_singleton _ _
  obtain ⟨after, places, hplaces, hrun, hformatted⟩ : ∃ after places,
      (collected tree recursive [path]).map tree.resolve = places.map .ok ∧
      (formatFiles (FileTree.workspace input) ⟨.write, recursive, .text, [path]⟩
        (collected tree recursive [path])).run tree = ({}, after) ∧ Formatted tree after places :=
    exists_run_formatFiles_write input rfl rfl (exists_of_mem_collected hread recursive) hnodup
  refine ⟨after, run_runOptions input (List.cons_ne_nil _ _) hrun, ?_⟩
  refine hformatted.read_of_mem_files hplaces ?_ hread
  rw [collected_of_read hread]
  exact List.mem_cons_self

/-- A check of one file succeeds exactly if there is nothing to format. -/
theorem exitCode_check_file :
    ((runOptions (FileTree.workspace input) ⟨.check, recursive, .text, [path]⟩).run
      tree).1.exitCode = 0 ↔ fileContent (Document.tidy text) = text := by
  have hrun : (formatFiles (FileTree.workspace input) ⟨.check, recursive, .text, [path]⟩
      (collected tree recursive [path])).run tree =
        ({ untidy := (collected tree recursive [path]).filter (changes tree) }, tree) :=
    run_formatFiles_check input rfl rfl (exists_of_mem_collected hread recursive)
  rw [run_runOptions input (List.cons_ne_nil _ _) hrun, collected_of_read hread,
    ← changes_eq_false_iff hread]
  cases hchanges : changes tree path with
  | false =>
      rw [List.filter_cons_of_neg (by simp [hchanges])]
      exact iff_of_true rfl rfl
  | true =>
      rw [List.filter_cons_of_pos hchanges]
      exact iff_of_false (show (1 : UInt32) ≠ 0 by decide) Bool.noConfusion

end

/-- Line feeds around a text are neutral, and its formatted form keeps none.  So a check of a file that
has been written succeeds just when formatting its text twice is the same as formatting it once. -/
theorem lineFeeds_neutral (text : List Char) :
    (∀ before after, Document.tidy
        (List.replicate before '\n' ++ text ++ List.replicate after '\n') = Document.tidy text) ∧
      (∀ char, (Document.tidy text).head? = some char ∨ (Document.tidy text).getLast? = some char →
        Blank.isBlank char = false) ∧
      ∀ (input : ByteArray) (tree : FileTree) (path : Path) (recursive : Bool),
        tree.read path = .ok text →
          let workspace := FileTree.workspace input
          let written := (runOptions workspace ⟨.write, recursive, .text, [path]⟩).run tree
          let checked := (runOptions workspace ⟨.check, recursive, .text, [path]⟩).run written.2
          written.1 = ⟨0, [], []⟩ ∧
            written.2.read path = .ok (fileContent (Document.tidy text)) ∧
            (fileContent (Document.tidy text) = [] ∨ ∃ body last,
              fileContent (Document.tidy text) = body ++ [last, '\n'] ∧ last ≠ '\n') ∧
            (checked.1.exitCode = 0 ↔
              Document.tidy (Document.tidy text) = Document.tidy text) := by
  refine ⟨fun before after => ?_, fun char => not_isBlank_of_tidy, ?_⟩
  · rw [List.append_assoc]
    exact tidy_surround before after text
  · intro input tree path recursive hread workspace written checked
    obtain ⟨after, hwritten, hafter⟩ := exists_write_file input hread recursive
    have hwritten : written = (⟨0, [], []⟩, after) := hwritten
    have hchecked := exitCode_check_file input hafter recursive
    rw [tidy_fileContent, fileContent_inj] at hchecked
    refine ⟨by rw [hwritten], by rw [hwritten]; exact hafter, fileContent_tidy_cases text, ?_⟩
    rw [← hchecked]
    simp only [checked, hwritten, workspace]

/-- A bracket and a string are left open before the last line feed, which a backslash hides. -/
theorem lineFeeds_neutral_of_unclosed :
    let text := "\n\n[ x \"\\\n".toList
    let path := "f".toList
    let input := ByteArray.empty
    let tree : FileTree :=
      { root := .directory [(path, .file (Files.bytesOfText text))], workingDirectory := [] }
    let workspace := FileTree.workspace input
    let written := (runOptions workspace ⟨.write, false, .text, [path]⟩).run tree
    let checked := (runOptions workspace ⟨.check, false, .text, [path]⟩).run written.2
    tree.read path = .ok text ∧
      written.1 = ⟨0, [], []⟩ ∧
      written.2.read path = .ok (fileContent (Document.tidy text)) ∧
      (fileContent (Document.tidy text) = [] ∨ ∃ body last,
        fileContent (Document.tidy text) = body ++ [last, '\n'] ∧ last ≠ '\n') ∧
      (checked.1.exitCode = 0 ↔ Document.tidy (Document.tidy text) = Document.tidy text) := by
  intro text path input tree workspace written checked
  have hresolve : tree.resolve path = .ok [path] := rfl
  have hread : tree.read path = .ok text := (FileTree.read_of_resolve hresolve text).mpr rfl
  exact ⟨hread, (lineFeeds_neutral text).2.2 input tree path false hread⟩

end CommandLine

end ChuckLayout
