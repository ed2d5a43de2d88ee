import Rv32Tools.Proofs.Files.Path
import Rv32Tools.Proofs.Tools.OutputFiles

/-
  Rv32Tools.Proofs.Tools.OutputPaths — where the outputs of a source are.

  The outputs of `dir/prog.s` are meant to be `dir/prog_imem.bin` and so on, or to have these names in the output
  directory. The paths are made by putting the stem below the directory, cleaning the result and writing the endings
  behind it, so they are entries of that directory exactly if it keeps the stem (`outputPaths_isEntry_iff`). It keeps every
  stem that is a name; the stems of `.s`, `..s` and `...s` are lost in most directories, and the outputs of `build/.s` are
  `build_imem.bin` and so on (`hidden_source_outputs_outside`).

  In any case none of the outputs is the source: the source would have to be named like an output, with a stem that is
  kept, and then the output has a longer name (`ne_output_of_parted`).
-/

namespace Rv32Tools.Tools.Assembler

/-- The directory that the outputs of a source are meant for, in its shortest form. -/
def outputDirectory (source outputDir : Text) : Text :=
  if outputDir = [] then Path.directory source else Path.clean outputDir

/-- The directory that the outputs of a source are meant for, as a place: that of the source if no other is given. -/
def outputPlace (work : Location) (source outputDir : Text) : Location :=
  if outputDir = [] then (work.ofPath source).parent else work.ofPath outputDir

theorem ofPath_outputDirectory (work : Location) {source : Text} (h : Path.IsName (Path.lastElement source))
    (outputDir : Text) : work.ofPath (outputDirectory source outputDir) = outputPlace work source outputDir := by
  unfold outputDirectory outputPlace
  by_cases hnone : outputDir = []
  · rw [if_pos hnone, if_pos hnone, Location.ofPath_eq_child work h, Location.parent_child]
  · rw [if_neg hnone, if_neg hnone, Location.ofPath_clean]

/-- Each output path is the stem put below the directory, with the ending of its kind. -/
theorem outputPaths_eq_join (source outputDir : Text) :
    ∃ dir, dir ≠ [] ∧ Path.clean dir = outputDirectory source outputDir ∧
      ∀ o ∈ (outputPaths source outputDir).all.zip endings,
        o.2 ∈ endings ∧ o.1 = Path.join dir (Path.stem source) ++ o.2 := by
  refine ⟨if outputDir.isEmpty then Path.directory source else outputDir, ?_, ?_, fun o ho => ?_⟩
  · cases outputDir with
    | nil => exact Path.clean_ne_nil _
    | cons b outputDir => exact List.cons_ne_nil _ _
  · cases outputDir with
    | nil => exact Path.clean_clean _
    | cons b outputDir => rfl
  · have hall : (outputPaths source outputDir).all = endings.map
        (Path.join (if outputDir.isEmpty then Path.directory source else outputDir) (Path.stem source) ++ ·) := rfl
    rw [hall, ← List.map_prod_right_eq_zip] at ho
    obtain ⟨ending, hmem, rfl⟩ := List.mem_map.mp ho
    exact ⟨hmem, rfl⟩

/-- A file that is named like an output has a stem of its own, and is not the output of a file of its own name. -/
theorem ne_output_of_parted {last name ext front ending : Text} (hparted : Path.Parted last name ext)
    (hending : ending ∈ endings) (hlast : last = front ++ ending) : Path.IsName name ∧ last ≠ name ++ ending := by
  obtain ⟨-, hhead, own, t, hcut, ht, hlong⟩ := ending_spec hending
  have hsplit : last = (front ++ own) ++ 0x2E :: t := by rw [hlast, hcut, List.append_assoc]
  obtain ⟨hname, -⟩ := hparted.unique ⟨hsplit, .inr ⟨t, rfl, ht⟩⟩
  refine ⟨Path.isName_of_length ?_, fun heq => ?_⟩
  · rw [hname, List.length_append]
    omega
  · -- the extension would be the ending, which does not start with a dot
    have hext : ext = ending := List.append_cancel_left (hparted.eq.symm.trans heq)
    subst hext
    rcases hparted.ext with ⟨rfl, -⟩ | ⟨t, rfl, -⟩
    · cases hhead
    · exact absurd hhead (by simp)

theorem outputPaths_isEntry_iff (work : Location) {source : Text} (h : Path.IsName (Path.lastElement source))
    (outputDir : Text) :
    ∃ name ext, Path.Parted (Path.lastElement source) name ext ∧
      ∀ o ∈ (outputPaths source outputDir).all.zip endings,
        (Path.IsEntry (outputDirectory source outputDir) (name ++ o.2) o.1 ↔
          Path.Keeps (outputDirectory source outputDir) name) ∧
        (Path.Keeps (outputDirectory source outputDir) name →
          work.ofPath o.1 = (outputPlace work source outputDir).child (name ++ o.2)) ∧
        work.ofPath o.1 ≠ work.ofPath source := by
  obtain ⟨name, ext, hparted⟩ := Path.exists_parted (Path.lastElement source)
  obtain ⟨dir, hdir, hclean, houtputs⟩ := outputPaths_eq_join source outputDir
  obtain ⟨-, -, -, hlast⟩ := Path.exists_leads source
  have hname : Path.slash ∉ name := by
    intro hs
    rw [hparted.eq] at hlast
    exact hlast (List.mem_append_left _ hs)
  refine ⟨name, ext, hparted, fun o ho => ?_⟩
  obtain ⟨hending, hpath⟩ := houtputs o ho
  have hslash := (ending_spec hending).1
  have hentry : Path.IsEntry (outputDirectory source outputDir) (name ++ o.2) o.1 ↔
      Path.Keeps (outputDirectory source outputDir) name := by
    rw [hpath, hparted.stem_eq h.ne_nil, ← hclean]
    exact Path.isEntry_join_iff hdir hname hslash
  have houtput : Path.lastElement o.1 = Path.lastElement (Path.join dir (Path.stem source)) ++ o.2 := by
    rw [hpath, Path.lastElement_append _ hslash]
  have hplace : work.ofPath o.1 = (work.ofPath (Path.directory o.1)).child (Path.lastElement o.1) := by
    apply Location.ofPath_eq_child
    rw [houtput]
    exact isName_append_ending _ hending
  refine ⟨hentry, fun hkeeps => ?_, fun hsame => ?_⟩
  · have hin := hentry.mpr hkeeps
    rw [hplace, hin.directory, hin.name, ofPath_outputDirectory work h]
  · -- one place has one name, so the source would be named like an output
    rw [hplace, Location.ofPath_eq_child work h, Location.child_inj] at hsame
    obtain ⟨hkept, hne⟩ := ne_output_of_parted hparted hending (hsame.2.symm.trans houtput)
    exact hne (hsame.2.symm.trans (hentry.mpr (.inl hkept)).name)

theorem outputPaths_isEntry_iff_build :
    Path.IsName (Path.lastElement "./src//prog.v1.s") ∧
      Path.IsEntry "build" "prog.v1_imem.bin" (outputPaths "./src//prog.v1.s" "out/../build/").textImage ∧
      Location.root.ofPath (outputPaths "./src//prog.v1.s" "out/../build/").textImage =
        (Location.root.ofPath "out/../build/").child "prog.v1_imem.bin" := by
  have h : Path.IsName (Path.lastElement "./src//prog.v1.s") := Path.isName_of_length (by decide)
  obtain ⟨name, ext, hparted, hall⟩ := outputPaths_isEntry_iff .root h "out/../build/"
  have hcut : Path.Parted (Path.lastElement "./src//prog.v1.s") "prog.v1" ".s" := ⟨rfl, .inr ⟨"s", rfl, by decide⟩⟩
  obtain ⟨rfl, -⟩ := hparted.unique hcut
  obtain ⟨hentry, hplace, -⟩ := hall (_, "_imem.bin") List.mem_cons_self
  have hkeeps : Path.Keeps (outputDirectory "./src//prog.v1.s" "out/../build/") "prog.v1" :=
    .inl (Path.isName_of_length (by decide))
  exact ⟨h, hentry.mpr hkeeps, hplace hkeeps⟩

/-- The outputs of `build/.s` are beside the directory `build`, not in it. -/
theorem hidden_source_outputs_outside :
    Path.IsName (Path.lastElement "build/.s") ∧ Path.Parted (Path.lastElement "build/.s") [] ".s" ∧
      (outputPaths "build/.s" []).textImage = "build_imem.bin" ∧
      ¬ Path.IsEntry (outputDirectory "build/.s" []) "_imem.bin" (outputPaths "build/.s" []).textImage := by
  refine ⟨⟨by decide, by decide, by decide⟩, ⟨rfl, .inr ⟨"s", rfl, by decide⟩⟩, by decide, fun h => ?_⟩
  exact absurd h.directory (by decide)

end Rv32Tools.Tools.Assembler
