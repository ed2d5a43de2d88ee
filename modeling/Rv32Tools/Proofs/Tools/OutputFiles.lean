import Rv32Tools.Proofs.Assembly.Framing
import Rv32Tools.Proofs.Files.Tree
import Rv32Tools.Proofs.Source.Reading
import Rv32Tools.Tools.Assembler
import Mathlib.Data.List.Nodup

/-
  Rv32Tools.Proofs.Tools.OutputFiles — the files that the assembler writes for one source.

  - The paths of a source name places of their own (`outputPlaces_nodup`): they differ in the ending of one name.
  - The files of a result are the image of the text segment with its dumps, those of the data segment if there is one,
    and the labels if they are asked for (`outputFiles_eq_ok`). Reading an image back gives the image (`imageFiles_eq_ok`).
  - Files that are written without a failure are all there, and nothing else is changed (`writeOutputs_spec`).
-/

namespace Rv32Tools

namespace Tools.Assembler

open Assembly (Image ImageError Result)

/-! ## Places -/

def OutputPaths.all (p : OutputPaths) : List Text :=
  [p.textImage, p.textBinary, p.textHex, p.dataImage, p.dataBinary, p.dataHex, p.symbols]

/-- What the output paths of a source end in. -/
def endings : List Text :=
  ["_imem.bin", "_imem_bin.txt", "_imem_hex.txt", "_dmem.bin", "_dmem_bin.txt", "_dmem_hex.txt", "_symbols.json"]

theorem outputPaths_all (source outputDir : Text) : ∃ base, (outputPaths source outputDir).all = endings.map (base ++ ·) :=
  ⟨_, rfl⟩

/-- An ending starts with an underscore and has an extension. -/
theorem ending_spec {ending : Text} (h : ending ∈ endings) :
    Path.slash ∉ ending ∧ ending.head? = some 0x5F ∧
      ∃ own t, ending = own ++ 0x2E :: t ∧ 0x2E ∉ t ∧ 2 < own.length := by
  have hends : endings.all (fun e => !e.contains Path.slash && e.head? == some 0x5F &&
      e == e.takeWhile (· != 0x2E) ++ 0x2E :: (e.dropWhile (· != 0x2E)).tail &&
      !(e.dropWhile (· != 0x2E)).tail.contains 0x2E && decide (2 < (e.takeWhile (· != 0x2E)).length)) = true := by
    decide +kernel
  have hending := List.all_eq_true.mp hends ending h
  simp only [Bool.and_eq_true, Bool.not_eq_true', beq_iff_eq, decide_eq_true_eq, List.contains_eq_mem,
    decide_eq_false_iff_not] at hending
  obtain ⟨⟨⟨⟨hslash, hhead⟩, hcut⟩, hdot⟩, hlong⟩ := hending
  exact ⟨hslash, hhead, _, _, hcut, hdot, hlong⟩

theorem isName_append_ending (front : Text) {ending : Text} (h : ending ∈ endings) : Path.IsName (front ++ ending) := by
  obtain ⟨-, -, own, t, hcut, -, hlong⟩ := ending_spec h
  apply Path.isName_of_length
  rw [hcut, List.length_append, List.length_append]
  omega

theorem outputPlaces_nodup (work : Location) (source outputDir : Text) :
    ((outputPaths source outputDir).all.map work.ofPath).Nodup := by
  obtain ⟨base, hbase⟩ := outputPaths_all source outputDir
  obtain ⟨l, hplace⟩ := Location.ofPath_append work base
  have hplaces : (endings.map (base ++ ·)).map work.ofPath =
      endings.map fun ending => l.child (Path.lastElement base ++ ending) := by
    rw [List.map_map]
    refine List.map_congr_left fun ending hmem => ?_
    exact hplace ending (ending_spec hmem).1 (isName_append_ending _ hmem)
  have hinj : Function.Injective fun ending : Text => l.child (Path.lastElement base ++ ending) := by
    intro ending ending' he
    simpa [Location.child] using he
  rw [hbase, hplaces]
  exact List.Nodup.map hinj (by decide +kernel)

/-! ## The files of a result -/

theorem imageFiles_eq_ok {i : Image} {image binary hex : Text} {files : List (Text × Text)}
    (h : imageFiles i image binary hex = .ok files) :
    ∃ bytes, files = [(image, bytes), (binary, i.binaryDump), (hex, i.hexDump)] ∧ Image.ofBytes bytes = .ok i := by
  unfold imageFiles at h
  cases hb : i.toBytes with
  | error e =>
    rw [hb] at h
    cases h
  | ok bytes =>
    rw [hb] at h
    cases h
    exact ⟨bytes, rfl, Image.ofBytes_eq_ok_iff.mpr (Image.toBytes_eq_ok_iff.mp hb)⟩

/-- The files of the data segment; none if there is no such segment. -/
def dataFiles (r : Result) (ps : OutputPaths) : Except OutputError (List (Text × Text)) :=
  match r.data with
  | none => .ok []
  | some i => imageFiles i ps.dataImage ps.dataBinary ps.dataHex

theorem dataFiles_eq_ok {r : Result} {ps : OutputPaths} {files : List (Text × Text)} (h : dataFiles r ps = .ok files) :
    files.map Prod.fst = (if r.data.isSome then [ps.dataImage, ps.dataBinary, ps.dataHex] else []) ∧
      ∀ i, r.data = some i → ∃ bytes, (ps.dataImage, bytes) ∈ files ∧ Image.ofBytes bytes = .ok i := by
  unfold dataFiles at h
  cases hd : r.data with
  | none =>
    rw [hd] at h
    cases h
    exact ⟨rfl, fun i hi => by cases hi⟩
  | some j =>
    rw [hd] at h
    obtain ⟨bytes, rfl, hread⟩ := imageFiles_eq_ok h
    refine ⟨rfl, fun i hi => ?_⟩
    cases hi
    exact ⟨bytes, List.mem_cons_self, hread⟩

theorem symbolFiles_eq_ok {encode : SymbolEncoder} {r : Result} {source path : Text} {withSymbols : Bool}
    {files : List (Text × Text)} (h : symbolFiles encode r source path withSymbols = .ok files) :
    files.map Prod.fst = (if withSymbols then [path] else []) ∧
      (withSymbols = true →
        ∃ content, encode (.ofResult (Path.base source) r) = .ok content ∧ (path, content) ∈ files) := by
  unfold symbolFiles at h
  cases withSymbols with
  | false =>
    cases h
    exact ⟨rfl, fun hs => by cases hs⟩
  | true =>
    cases hencode : encode (.ofResult (Path.base source) r) with
    | error message =>
      rw [hencode] at h
      cases h
    | ok content =>
      rw [hencode] at h
      cases h
      exact ⟨rfl, fun _ => ⟨content, rfl, List.mem_cons_self⟩⟩

theorem outputFiles_eq_bind {r : Result} {i : Image} (ht : r.text = some i) (encode : SymbolEncoder) (source : Text)
    (ps : OutputPaths) (withSymbols : Bool) :
    outputFiles encode r source ps withSymbols =
      (imageFiles i ps.textImage ps.textBinary ps.textHex).bind fun text => (dataFiles r ps).bind fun data =>
        (symbolFiles encode r source ps.symbols withSymbols).bind fun symbols => .ok (text ++ data ++ symbols) := by
  unfold outputFiles dataFiles
  rw [ht]
  cases r.data with
  | none => rfl
  | some j => rfl

/-- The files that belong to a result, with images that read back as its own. -/
structure FilesOf (encode : SymbolEncoder) (r : Result) (source : Text) (ps : OutputPaths) (withSymbols : Bool)
    (files : List (Text × Text)) : Prop where
  paths : files.map Prod.fst =
    [ps.textImage, ps.textBinary, ps.textHex] ++ (if r.data.isSome then [ps.dataImage, ps.dataBinary, ps.dataHex] else []) ++
      (if withSymbols then [ps.symbols] else [])
  text : ∃ i bytes, r.text = some i ∧ (ps.textImage, bytes) ∈ files ∧ Image.ofBytes bytes = .ok i
  data : ∀ i, r.data = some i → ∃ bytes, (ps.dataImage, bytes) ∈ files ∧ Image.ofBytes bytes = .ok i
  symbols : withSymbols = true →
    ∃ content, encode (.ofResult (Path.base source) r) = .ok content ∧ (ps.symbols, content) ∈ files

section

variable {encode : SymbolEncoder} {r : Result} {source : Text} {withSymbols : Bool}

theorem outputFiles_eq_ok {ps : OutputPaths} {files : List (Text × Text)}
    (h : outputFiles encode r source ps withSymbols = .ok files) : FilesOf encode r source ps withSymbols files := by
  cases ht : r.text with
  | none =>
    unfold outputFiles at h
    rw [ht] at h
    cases h
  | some i =>
    rw [outputFiles_eq_bind ht] at h
    cases htext : imageFiles i ps.textImage ps.textBinary ps.textHex with
    | error e =>
      rw [htext] at h
      cases h
    | ok text =>
      cases hdata : dataFiles r ps with
      | error e =>
        rw [htext, hdata] at h
        cases h
      | ok data =>
        cases hsymbols : symbolFiles encode r source ps.symbols withSymbols with
        | error e =>
          rw [htext, hdata, hsymbols] at h
          cases h
        | ok symbols =>
          rw [htext, hdata, hsymbols] at h
          cases h
          obtain ⟨bytes, rfl, hread⟩ := imageFiles_eq_ok htext
          obtain ⟨hpaths, himage⟩ := dataFiles_eq_ok hdata
          obtain ⟨hpath, hcontent⟩ := symbolFiles_eq_ok hsymbols
          refine ⟨?_, ⟨i, bytes, ht, List.mem_cons_self, hread⟩, fun j hj => ?_, fun hs => ?_⟩
          · rw [List.map_append, List.map_append, hpaths, hpath]
            rfl
          · obtain ⟨bytes', hmem, hread'⟩ := himage j hj
            exact ⟨bytes', List.mem_append_left _ (List.mem_append_right _ hmem), hread'⟩
          · obtain ⟨content, hencode, hmem⟩ := hcontent hs
            exact ⟨content, hencode, List.mem_append_right _ hmem⟩

theorem FilesOf.paths_sublist {ps : OutputPaths} {files : List (Text × Text)}
    (h : FilesOf encode r source ps withSymbols files) : (files.map Prod.fst).Sublist ps.all := by
  have hdata : (if r.data.isSome then [ps.dataImage, ps.dataBinary, ps.dataHex] else []).Sublist
      [ps.dataImage, ps.dataBinary, ps.dataHex] := by
    by_cases hd : r.data.isSome = true
    · rw [if_pos hd]
    · rw [if_neg hd]
      exact List.nil_sublist _
  have hsymbols : (if withSymbols then [ps.symbols] else []).Sublist [ps.symbols] := by
    by_cases hs : withSymbols = true
    · rw [if_pos hs]
    · rw [if_neg hs]
      exact List.nil_sublist _
  rw [h.paths]
  exact ((List.Sublist.refl _).append hdata).append hsymbols

/-! ## Writing them -/

/-- Files that are written without a failure are all there, if none is written over another. -/
theorem writeAll_spec {written : List Text} {files : List (Text × Text)} {t t' : FileTree} {paths : List Text}
    (h : (writeAll written files).runOn t = ((paths, none), t')) :
    FileTree.Changed (files.map fun f => t.work.ofPath f.1) t t' ∧
      ((files.map fun f => t.work.ofPath f.1).Nodup → ∀ f ∈ files, t'.read f.1 = .ok f.2) := by
  induction files generalizing written t with
  | nil =>
    cases h
    exact ⟨.refl _, fun _ f hf => absurd hf List.not_mem_nil⟩
  | cons f files ih =>
    obtain ⟨path, content⟩ := f
    rw [writeAll, Script.runOn_bind] at h
    rcases hw : (Script.writeFile path content).runOn t with ⟨_ | e, t₁⟩
    · rw [hw] at h
      obtain ⟨changed, hread⟩ := FileTree.write_changed (Script.runOn_writeFile.mp hw)
      obtain ⟨rest, hrest⟩ := ih h
      rw [changed.work] at rest hrest
      refine ⟨changed.trans rest, fun hnodup g hg => ?_⟩
      rw [List.map_cons, List.nodup_cons] at hnodup
      rcases List.mem_cons.mp hg with rfl | hg
      · exact rest.read (changed.work ▸ hnodup.1) hread
      · exact hrest hnodup.2 g hg
    · rw [hw] at h
      cases h

theorem writeOutputs_spec {outputDir : Text} {t t' : FileTree} {paths : List Text}
    (h : (writeOutputs encode r source (outputPaths source outputDir) withSymbols).runOn t = ((paths, none), t')) :
    ∃ files, outputFiles encode r source (outputPaths source outputDir) withSymbols = .ok files ∧
      FileTree.Changed (files.map fun f => t.work.ofPath f.1) t t' ∧ ∀ f ∈ files, t'.read f.1 = .ok f.2 := by
  unfold writeOutputs at h
  cases hfiles : outputFiles encode r source (outputPaths source outputDir) withSymbols with
  | error e =>
    rw [hfiles] at h
    cases h
  | ok files =>
    rw [hfiles] at h
    simp only [Script.runOn_bind] at h
    rcases hm : (Script.makeDirs (Path.directory (outputPaths source outputDir).textImage)).runOn t with ⟨_ | e, t₁⟩
    · rw [hm] at h
      have made := FileTree.makeDirectories_changed (Script.runOn_makeDirs.mp hm)
      have hplaces : (files.map fun f => t.work.ofPath f.1).Nodup := by
        have hsub := ((outputFiles_eq_ok hfiles).paths_sublist.map t.work.ofPath).nodup
          (outputPlaces_nodup t.work source outputDir)
        rwa [List.map_map] at hsub
      obtain ⟨changed, hread⟩ := writeAll_spec h
      rw [made.work] at changed hread
      exact ⟨files, rfl, made.trans changed, hread hplaces⟩
    · rw [hm] at h
      cases h

end

end Tools.Assembler

end Rv32Tools
