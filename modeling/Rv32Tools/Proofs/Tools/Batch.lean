import Rv32Tools.Proofs.Assembly.OneLine
import Rv32Tools.Proofs.Tools.OutputFiles
import Rv32Tools.Tools.Standard
import Mathlib.Data.List.Induction

/-
  Rv32Tools.Proofs.Tools.Batch — the assembler on a list of sources.

  The sources are taken one after the other, each in the tree that the ones before it leave (`treeBefore`), and each
  comes to a verdict (`verdict`): it cannot be read, its run is fatal, it has errors, or it is good.
  - The status of the tool is the worst, in any order (`worstStatus_eq`).
  - A source that is not good leaves the tree as it is (`assembleFile_of_not_good`).
  - The errors of a source are one for each instruction line that cannot be encoded, in order (`errorsOnce`).
  - A good source writes its files and changes nothing else (`assembleFile_changed`). If different sources have output
    files of their own, and none is a source, these stay to the end (`outputs_kept`).

  This is so in every environment: nothing is asked of the reader of the settings file, of the writers of the symbol map,
  the log and the dump, or of the console. With no source at all there is nothing to do, and the tool shows its usage with
  status 1 (`status_of_no_source`).
-/

namespace Rv32Tools

/-! ## Errors -/

namespace Assembly

open Source (Line)
open Layout (along placedOn)

/-- Whether a placed line cannot be encoded. -/
def Stages.fails (st : Stages) (o : Options) (e : Placement) : Bool :=
  match Context.line ⟨st.layout.symbols, o.positionIndependent, e.pc⟩ e.line with
  | .ok _ => false
  | .error _ => true

/-- The errors of a result are one for each instruction line that cannot be encoded, in the order of the lines. -/
structure ErrorsOnce (o : Options) (source : Text) (st : Stages) (r : Result) : Prop where
  stages : Stages.ofSource source = .ok st
  instructions : st.expanded.map (·.line.number) = ((st.textLines source).filter Line.isInstruction).map Line.number
  lines : r.errors.map Diagnostic.line = (st.expanded.filter (st.fails o)).map (·.line.number)
  increasing : (r.errors.map Diagnostic.line).Pairwise (· < ·)
  failed : r.failed = (st.expanded.filter (st.fails o)).length
  causes : ∀ d ∈ r.errors, ∃ e ∈ st.expanded, ∃ cause,
    Context.line ⟨st.layout.symbols, o.positionIndependent, e.pc⟩ e.line = .error (.error cause) ∧
      d = ⟨.error, e.line.number, cause.message⟩

/-- A line that can be encoded has no error, and one that cannot has one, with its number. -/
theorem Stages.error?_line (st : Stages) (o : Options) {e : Placement}
    (h : (attempt o st.layout.symbols e).abort? = none) :
    (attempt o st.layout.symbols e).error?.map Diagnostic.line = if st.fails o e then some e.line.number else none := by
  unfold fails
  simp only [Attempt.abort?, Attempt.error?, attempt] at h ⊢
  generalize Context.line ⟨st.layout.symbols, o.positionIndependent, e.pc⟩ e.line = outcome at h ⊢
  rcases outcome with (cause | a) | is
  · rfl
  · cases h
  · rfl

theorem Stages.errors_lines {st : Stages} {source : Text} (h : ofSource source = .ok st) (o : Options) :
    (st.errors o).map Diagnostic.line = (st.expanded.filter (st.fails o)).map (·.line.number) := by
  have hline : ∀ e ∈ st.expanded, ((Attempt.error? ∘ attempt o st.layout.symbols) e).map Diagnostic.line =
      if st.fails o e then some e.line.number else none := fun e he =>
    st.error?_line o (no_abort h o _ (List.mem_map_of_mem he))
  rw [errors, attempts, List.filterMap_map, List.map_filterMap, List.filterMap_congr hline,
    ← List.filterMap_eq_map, List.filterMap_filter]
  rfl

theorem errorsOnce {o : Options} {source : Text} {r : Result} (h : (assemble o source).outcome = .ok r) :
    ∃ st, ErrorsOnce o source st r := by
  obtain ⟨st, hst, rfl⟩ := Stages.ofSource_of_outcome h
  have hlines := Stages.errors_lines hst o
  refine ⟨st, hst, Stages.expanded_numbers hst, hlines, ?_, ?_, ?_⟩
  · show ((st.errors o).map Diagnostic.line).Pairwise _
    rw [hlines]
    exact (Stages.expanded_increasing hst).sublist (List.filter_sublist.map _)
  · show (st.errors o).length = _
    rw [← List.length_map Diagnostic.line, hlines, List.length_map]
  · intro d hd
    obtain ⟨a, ha, he⟩ := List.mem_filterMap.mp hd
    obtain ⟨e, hmem, rfl⟩ := List.mem_map.mp ha
    unfold Attempt.error? at he
    split at he
    · rename_i cause hc
      cases he
      exact ⟨e, hmem, cause, hc, rfl⟩
    · cases he

/-- A run without errors has an image of the data segment exactly if there is one. -/
theorem data_isSome {o : Options} {source : Text} {r : Result} (h : (assemble o source).outcome = .ok r)
    (he : r.errors = []) : r.data.isSome = r.sections.data.isSome := by
  obtain ⟨st, hst, rfl⟩ := Stages.ofSource_of_outcome h
  rw [st.result_data o source he]
  show (dataImage st.sections st.data).isSome = st.sections.data.isSome
  unfold dataImage
  cases hr : st.sections.data with
  | none => rfl
  | some region =>
    obtain ⟨d, hd, _⟩ := buildData_of_dataStage (Stages.ofSource_ok hst).2.1 hr
    rw [hd]
    rfl

end Assembly

namespace Tools.Assembler

open Assembly (Result ErrorsOnce)
open CommandLine (Parsed)

/-! ## Statuses -/

theorem worstStatus_concat (statuses : List Nat) (status : Nat) :
    worstStatus (statuses ++ [status]) = worseStatus (worstStatus statuses) status := by
  rw [worstStatus, List.foldl_append]
  rfl

/-- The worst of some statuses, in any order. -/
theorem worstStatus_eq (statuses : List Nat) :
    worstStatus statuses = if 1 ∈ statuses then 1 else if 2 ∈ statuses then 2 else 0 := by
  induction statuses using List.reverseRecOn with
  | nil => rfl
  | append_singleton statuses status ih =>
    rw [worstStatus_concat, ih, worseStatus]
    grind

/-! ## One source -/

/-- What a source comes to. -/
inductive Verdict where
  | unreadable
  | fatal
  /-- Its run has no answer. -/
  | aborted
  | erroneous (r : Result)
  | good (r : Result)
  deriving DecidableEq

def Settings.options (s : Settings) : Assembly.Options := ⟨s.positionIndependent, s.listing⟩

/-- The verdict on a source in a tree. -/
def verdict (s : Settings) (t : FileTree) (path : Text) : Verdict :=
  match t.read path with
  | .error _ => .unreadable
  | .ok source =>
    match (Assembly.assemble s.options source).outcome with
    | .error (.error _) => .fatal
    | .error (.abort _) => .aborted
    | .ok r => if r.isOk then .good r else .erroneous r

def Verdict.status : Verdict → Nat
  | .unreadable => 1
  | .fatal => 1
  | .aborted => abortStatus
  | .erroneous _ => 2
  | .good _ => 0

theorem Verdict.status_eq_one {v : Verdict} : v.status = 1 ↔ v = .unreadable ∨ v = .fatal := by
  cases v <;> simp [status, abortStatus]

theorem Verdict.status_eq_two {v : Verdict} (h : v ≠ .aborted) : v.status = 2 ↔ ∃ r, v = .erroneous r := by
  cases v with
  | aborted => exact absurd rfl h
  | _ => simp [status]

/-- Why the files of a good source were not written. -/
def writeFailure (env : Environment) (s : Settings) (t : FileTree) (path : Text) : Option OutputError :=
  match verdict s t path with
  | .good r => ((writeOutputs env.encode r path (outputPaths path s.outputDir) s.symbols).runOn t).1.2
  | _ => none

/-- The files of a source; none if it is not good. -/
def outputsOf (env : Environment) (s : Settings) (t : FileTree) (path : Text) : List (Text × Text) :=
  match verdict s t path with
  | .good r => (outputFiles env.encode r path (outputPaths path s.outputDir) s.symbols).toOption.getD []
  | _ => []

section

variable {env : Environment} {s : Settings} {t : FileTree} {path : Text}

theorem verdict_congr {t' : FileTree} (h : t.read path = t'.read path) : verdict s t path = verdict s t' path := by
  rw [verdict, verdict, h]

theorem outputsOf_congr {t' : FileTree} (h : t.read path = t'.read path) :
    outputsOf env s t path = outputsOf env s t' path := by
  rw [outputsOf, outputsOf, verdict_congr h]

/-- A source with a result was read and assembled. -/
theorem verdict_result {r : Result} (h : verdict s t path = .good r ∨ verdict s t path = .erroneous r) :
    ∃ source, t.read path = .ok source ∧ (Assembly.assemble s.options source).outcome = .ok r ∧
      verdict s t path = if r.isOk then .good r else .erroneous r := by
  unfold verdict at h ⊢
  cases hread : t.read path with
  | error e => simp [hread] at h
  | ok source =>
    simp only [hread] at h ⊢
    rcases hr : (Assembly.assemble s.options source).outcome with (d | a) | r'
    · simp [hr] at h
    · simp [hr] at h
    · have hsame : r' = r := by
        rw [hr] at h
        by_cases hok : r'.isOk = true
        · simpa [hok] using h
        · simpa [hok] using h
      subst hsame
      exact ⟨source, rfl, hr, rfl⟩

theorem verdict_eq_good {r : Result} (h : verdict s t path = .good r) :
    ∃ source, t.read path = .ok source ∧ (Assembly.assemble s.options source).outcome = .ok r ∧ r.errors = [] := by
  obtain ⟨source, hread, hr, hv⟩ := verdict_result (Or.inl h)
  refine ⟨source, hread, hr, ?_⟩
  by_cases hok : r.isOk = true
  · exact List.isEmpty_iff.mp hok
  · rw [h, if_neg hok] at hv
    cases hv

theorem assembleFile_of_not_good (h : ∀ r, verdict s t path ≠ .good r) (inColor : Bool) :
    ((assembleFile env s inColor path).runOn t).1.status = (verdict s t path).status ∧
      ((assembleFile env s inColor path).runOn t).2 = t := by
  unfold assembleFile verdict at *
  simp only [Script.runOn_bind, Script.runOn_readFile]
  cases hread : t.read path with
  | error e => exact ⟨rfl, rfl⟩
  | ok source =>
    rw [hread] at h
    simp only [Settings.options] at h ⊢
    generalize (Assembly.assemble ⟨s.positionIndependent, s.listing⟩ source).outcome = outcome at h ⊢
    rcases outcome with (d | a) | r
    · exact ⟨rfl, rfl⟩
    · exact ⟨rfl, rfl⟩
    · have hbad : r.isOk = false := by
        cases hok : r.isOk with
        | false => rfl
        | true =>
          simp only [hok, if_true] at h
          exact absurd rfl (h r)
      simp only [hbad, Bool.not_false, if_true, Bool.false_eq_true, if_false]
      exact ⟨rfl, rfl⟩

theorem assembleFile_of_good {r : Result} (h : verdict s t path = .good r) (hw : writeFailure env s t path = none)
    (inColor : Bool) :
    ((assembleFile env s inColor path).runOn t).1.status = 0 ∧
      ((assembleFile env s inColor path).runOn t).2 =
        ((writeOutputs env.encode r path (outputPaths path s.outputDir) s.symbols).runOn t).2 := by
  obtain ⟨source, hread, hr, he⟩ := verdict_eq_good h
  have hwritten : ((writeOutputs env.encode r path (outputPaths path s.outputDir) s.symbols).runOn t).1.2 = none := by
    rw [writeFailure, h] at hw
    exact hw
  have hok : (!r.isOk) = false := by simp [Result.isOk, he]
  unfold assembleFile
  simp only [Settings.options] at hr
  simp only [Script.runOn_bind, Script.runOn_readFile, hread, hr, hok, Bool.false_eq_true, if_false]
  rcases hrun : (writeOutputs env.encode r path (outputPaths path s.outputDir) s.symbols).runOn t with ⟨⟨written, failure⟩, t'⟩
  rw [hrun] at hwritten
  simp only at hwritten
  subst hwritten
  exact ⟨rfl, rfl⟩

/-- What a good source writes. -/
theorem writeOutputs_good {r : Result} (h : verdict s t path = .good r) (hw : writeFailure env s t path = none) :
    FilesOf env.encode r path (outputPaths path s.outputDir) s.symbols (outputsOf env s t path) ∧
      FileTree.Changed ((outputsOf env s t path).map fun f => t.work.ofPath f.1) t
        ((writeOutputs env.encode r path (outputPaths path s.outputDir) s.symbols).runOn t).2 ∧
      ∀ f ∈ outputsOf env s t path,
        ((writeOutputs env.encode r path (outputPaths path s.outputDir) s.symbols).runOn t).2.read f.1 = .ok f.2 := by
  rw [writeFailure, h] at hw
  rcases hrun : (writeOutputs env.encode r path (outputPaths path s.outputDir) s.symbols).runOn t with ⟨⟨written, failure⟩, t'⟩
  simp only [hrun] at hw
  subst hw
  obtain ⟨files, hfiles, changed, hread⟩ := writeOutputs_spec hrun
  have houtputs : outputsOf env s t path = files := by
    rw [outputsOf, h]
    simp only [hfiles]
    rfl
  rw [houtputs]
  exact ⟨outputFiles_eq_ok hfiles, changed, hread⟩

theorem outputsOf_of_not_good (h : ∀ r, verdict s t path ≠ .good r) : outputsOf env s t path = [] := by
  unfold outputsOf
  split
  · rename_i r hr
    exact absurd hr (h r)
  · rfl

/-- What a source does to the files: it writes its own, and leaves the others alone. -/
theorem assembleFile_changed (hw : writeFailure env s t path = none) (inColor : Bool) :
    FileTree.Changed ((outputsOf env s t path).map fun f => t.work.ofPath f.1) t
        ((assembleFile env s inColor path).runOn t).2 ∧
      ∀ f ∈ outputsOf env s t path, ((assembleFile env s inColor path).runOn t).2.read f.1 = .ok f.2 := by
  by_cases hgood : ∃ r, verdict s t path = .good r
  · obtain ⟨r, hr⟩ := hgood
    rw [(assembleFile_of_good hr hw inColor).2]
    exact (writeOutputs_good hr hw).2
  · have hbad : ∀ r, verdict s t path ≠ .good r := fun r hr => hgood ⟨r, hr⟩
    rw [outputsOf_of_not_good hbad, (assembleFile_of_not_good hbad inColor).2]
    exact ⟨.refl t, fun f hf => absurd hf List.not_mem_nil⟩

/-- The status of a source, where its files are written. -/
theorem assembleFile_status (hw : writeFailure env s t path = none) (inColor : Bool) :
    ((assembleFile env s inColor path).runOn t).1.status = (verdict s t path).status := by
  by_cases hgood : ∃ r, verdict s t path = .good r
  · obtain ⟨r, hr⟩ := hgood
    rw [(assembleFile_of_good hr hw inColor).1, hr]
    rfl
  · exact (assembleFile_of_not_good (fun r hr => hgood ⟨r, hr⟩) inColor).1

theorem outputsOf_places (env : Environment) (s : Settings) (t : FileTree) (path : Text) :
    ∀ f ∈ outputsOf env s t path, f.1 ∈ (outputPaths path s.outputDir).all := by
  intro f hf
  unfold outputsOf at hf
  split at hf
  · rename_i r hr
    cases hfiles : outputFiles env.encode r path (outputPaths path s.outputDir) s.symbols with
    | error e =>
      rw [hfiles] at hf
      cases hf
    | ok files =>
      rw [hfiles] at hf
      exact (outputFiles_eq_ok hfiles).paths_sublist.subset (List.mem_map_of_mem hf)
  · cases hf

end

/-! ## One source after the other -/

theorem assembleAll_append (env : Environment) (s : Settings) (inColor : Bool) (sources sources' : List Text)
    (t : FileTree) :
    ((assembleAll env s inColor (sources ++ sources')).runOn t).2 =
      ((assembleAll env s inColor sources').runOn ((assembleAll env s inColor sources).runOn t).2).2 := by
  induction sources generalizing t with
  | nil => rfl
  | cons path sources ih =>
    simp only [List.cons_append, assembleAll, Script.runOn_bind, Script.runOn_pure]
    exact ih _

/-- The tree that the first `k` sources leave. -/
def treeBefore (env : Environment) (s : Settings) (t : FileTree) (sources : List Text) (k : Nat) : FileTree :=
  ((assembleAll env s (env.inColor s) (sources.take k)).runOn t).2

section

variable {env : Environment} {s : Settings} {t : FileTree} {sources : List Text}

theorem treeBefore_work (k : Nat) : (treeBefore env s t sources k).work = t.work := Script.runOn_work _ _

theorem treeBefore_succ {k : Nat} {path : Text} (h : sources[k]? = some path) :
    treeBefore env s t sources (k + 1) =
      ((assembleFile env s (env.inColor s) path).runOn (treeBefore env s t sources k)).2 := by
  rw [treeBefore, List.take_add_one, h, assembleAll_append]
  simp only [Option.toList_some, assembleAll, Script.runOn_bind, Script.runOn_pure]
  rfl

theorem treeBefore_of_le {k : Nat} (h : sources.length ≤ k) :
    treeBefore env s t sources k = ((assembleAll env s (env.inColor s) sources).runOn t).2 := by
  rw [treeBefore, List.take_of_length_le h]

theorem treeBefore_succ_of_none {k : Nat} (h : sources[k]? = none) :
    treeBefore env s t sources (k + 1) = treeBefore env s t sources k := by
  have hlen := List.getElem?_eq_none_iff.mp h
  rw [treeBefore_of_le hlen, treeBefore_of_le (by omega)]

theorem exits_getElem? (k : Nat) :
    ((assembleAll env s (env.inColor s) sources).runOn t).1[k]? =
      sources[k]?.map fun path => ((assembleFile env s (env.inColor s) path).runOn (treeBefore env s t sources k)).1 := by
  induction sources generalizing t k with
  | nil => rfl
  | cons path sources ih =>
    simp only [assembleAll, Script.runOn_bind, Script.runOn_pure]
    cases k with
    | zero => rfl
    | succ k =>
      rw [List.getElem?_cons_succ, List.getElem?_cons_succ, ih]
      simp only [treeBefore, List.take_succ_cons, assembleAll, Script.runOn_bind, Script.runOn_pure]

/-- Some source comes to the verdict. -/
def HasVerdict (env : Environment) (s : Settings) (t : FileTree) (sources : List Text) (v : Verdict) : Prop :=
  ∃ k path, sources[k]? = some path ∧ verdict s (treeBefore env s t sources k) path = v

/-- What a batch is promised: every run has an answer, every file can be written, and different sources have output files
of their own that are no source. -/
structure Undisturbed (env : Environment) (s : Settings) (t : FileTree) (sources : List Text) : Prop where
  answered : ∀ k path, sources[k]? = some path → verdict s (treeBefore env s t sources k) path ≠ .aborted
  written : ∀ k path, sources[k]? = some path → writeFailure env s (treeBefore env s t sources k) path = none
  apart : ∀ a ∈ sources, ∀ b ∈ sources, a ≠ b → ∀ x ∈ (outputPaths a s.outputDir).all,
    ∀ y ∈ (outputPaths b s.outputDir).all, t.work.ofPath x ≠ t.work.ofPath y
  noSource : ∀ a ∈ sources, ∀ x ∈ (outputPaths a s.outputDir).all, ∀ b ∈ sources, t.work.ofPath x ≠ t.work.ofPath b

namespace Undisturbed

variable (h : Undisturbed env s t sources)

include h

theorem mem_statuses (n : Nat) :
    n ∈ ((assembleAll env s (env.inColor s) sources).runOn t).1.map Exit.status ↔
      ∃ v, HasVerdict env s t sources v ∧ v.status = n := by
  rw [List.mem_map]
  constructor
  · rintro ⟨exit, hexit, rfl⟩
    obtain ⟨k, hk⟩ := List.mem_iff_getElem?.mp hexit
    rw [exits_getElem?] at hk
    obtain ⟨path, hpath, rfl⟩ := Option.map_eq_some_iff.mp hk
    exact ⟨_, ⟨k, path, hpath, rfl⟩, (assembleFile_status (h.written k path hpath) _).symm⟩
  · rintro ⟨_, ⟨k, path, hpath, rfl⟩, rfl⟩
    refine ⟨((assembleFile env s (env.inColor s) path).runOn (treeBefore env s t sources k)).1, ?_,
      assembleFile_status (h.written k path hpath) (env.inColor s)⟩
    refine List.mem_iff_getElem?.mpr ⟨k, ?_⟩
    rw [exits_getElem?, hpath]
    rfl

theorem one_mem_statuses : 1 ∈ ((assembleAll env s (env.inColor s) sources).runOn t).1.map Exit.status ↔
    HasVerdict env s t sources .unreadable ∨ HasVerdict env s t sources .fatal := by
  rw [h.mem_statuses]
  constructor
  · rintro ⟨v, hv, hstatus⟩
    rcases Verdict.status_eq_one.mp hstatus with rfl | rfl
    · exact Or.inl hv
    · exact Or.inr hv
  · rintro (hv | hv)
    · exact ⟨_, hv, rfl⟩
    · exact ⟨_, hv, rfl⟩

theorem two_mem_statuses : 2 ∈ ((assembleAll env s (env.inColor s) sources).runOn t).1.map Exit.status ↔
    ∃ r, HasVerdict env s t sources (.erroneous r) := by
  rw [h.mem_statuses]
  constructor
  · rintro ⟨v, hv, hstatus⟩
    have hanswered : v ≠ .aborted := by
      obtain ⟨k, path, hk, rfl⟩ := hv
      exact h.answered k path hk
    obtain ⟨r, rfl⟩ := (Verdict.status_eq_two hanswered).mp hstatus
    exact ⟨r, hv⟩
  · rintro ⟨r, hv⟩
    exact ⟨_, hv, rfl⟩

/-- What one of the sources does to the files. -/
theorem step_changed {k : Nat} {b : Text} (hb : sources[k]? = some b) :
    FileTree.Changed ((outputsOf env s (treeBefore env s t sources k) b).map fun f => t.work.ofPath f.1)
        (treeBefore env s t sources k) (treeBefore env s t sources (k + 1)) ∧
      ∀ f ∈ outputsOf env s (treeBefore env s t sources k) b, (treeBefore env s t sources (k + 1)).read f.1 = .ok f.2 := by
  have changed := assembleFile_changed (h.written k b hb) (env.inColor s)
  rw [treeBefore_work] at changed
  rw [treeBefore_succ hb]
  exact changed

/-- A source that can be read is left alone by the others. -/
theorem reads_kept {k m : Nat} (hkm : k ≤ m) {a content : Text} (ha : a ∈ sources)
    (hread : (treeBefore env s t sources k).read a = .ok content) : (treeBefore env s t sources m).read a = .ok content := by
  induction m, hkm using Nat.le_induction with
  | base => exact hread
  | succ m _ ih =>
    cases hb : sources[m]? with
    | none =>
      rw [treeBefore_succ_of_none hb]
      exact ih
    | some b =>
      refine (h.step_changed hb).1.read (fun hmem => ?_) ih
      rw [treeBefore_work] at hmem
      obtain ⟨f, hf, hplace⟩ := List.mem_map.mp hmem
      exact h.noSource b (List.mem_of_getElem? hb) f.1 (outputsOf_places env s _ b f hf) a ha hplace

/-- One source after another: the files of the other stay, or are written again as they are. -/
theorem step_outputs {k : Nat} {a b : Text} (hb : sources[k]? = some b) (ha : a ∈ sources) :
    ∀ f ∈ outputsOf env s (treeBefore env s t sources k) a, (treeBefore env s t sources k).read f.1 = .ok f.2 →
      (treeBefore env s t sources (k + 1)).read f.1 = .ok f.2 := by
  intro f hf hread
  obtain ⟨changed, hown⟩ := h.step_changed hb
  by_cases hab : a = b
  · subst hab
    exact hown f hf
  · refine changed.read (fun hmem => ?_) hread
    rw [treeBefore_work] at hmem
    obtain ⟨g, hg, hplace⟩ := List.mem_map.mp hmem
    exact h.apart a ha b (List.mem_of_getElem? hb) hab f.1 (outputsOf_places env s _ a f hf) g.1
      (outputsOf_places env s _ b g hg) hplace.symm

/-- The files of a source stay to the end. -/
theorem outputs_kept {k m : Nat} {a : Text} (ha : sources[k]? = some a) (hkm : k + 1 ≤ m) :
    ∀ f ∈ outputsOf env s (treeBefore env s t sources k) a, (treeBefore env s t sources m).read f.1 = .ok f.2 := by
  intro f hf
  have hmem := List.mem_of_getElem? ha
  induction m, hkm using Nat.le_induction with
  | base => exact (h.step_changed ha).2 f hf
  | succ m hm ih =>
    cases hb : sources[m]? with
    | none =>
      rw [treeBefore_succ_of_none hb]
      exact ih
    | some b =>
      -- the source is still read as it was, so its files are the same
      have hsame : outputsOf env s (treeBefore env s t sources m) a = outputsOf env s (treeBefore env s t sources k) a := by
        cases hread : (treeBefore env s t sources k).read a with
        | ok content => exact outputsOf_congr ((h.reads_kept (by omega) hmem hread).trans hread.symm)
        | error e =>
          rw [outputsOf, verdict, hread] at hf
          cases hf
      exact h.step_outputs hb hmem f (hsame ▸ hf) ih

theorem files_elsewhere {l : Location}
    (hl : ∀ k path, sources[k]? = some path → ∀ f ∈ outputsOf env s (treeBefore env s t sources k) path,
      t.work.ofPath f.1 ≠ l)
    (m : Nat) : (treeBefore env s t sources m).fileAt l = t.fileAt l := by
  induction m with
  | zero => rfl
  | succ m ih =>
    cases hb : sources[m]? with
    | none =>
      rw [treeBefore_succ_of_none hb]
      exact ih
    | some b =>
      rw [(h.step_changed hb).1.files l, ih]
      intro hmem
      obtain ⟨f, hf, hplace⟩ := List.mem_map.mp hmem
      exact hl m b hb f hf hplace

end Undisturbed

end

/-! ## The tool -/

/-- Settings are read, and nothing is written. -/
theorem settingsOf_tree (env : Environment) (p : Parsed) (t : FileTree) : ((settingsOf env p).runOn t).2 = t := by
  have hload : ∀ path required,
      ((Rv32Tools.Settings.Assembler.load env.decode env.processors path required).runOn t).2 = t := by
    intro path required
    unfold Rv32Tools.Settings.Assembler.load
    simp only [Script.runOn_bind, Script.runOn_readFile]
    cases t.read path with
    | ok content => rfl
    | error e => rfl
  unfold settingsOf
  simp only [Script.runOn_bind, hload]
  split
  · rfl
  · split
    · rfl
    · rfl

theorem run_runOn {env : Environment} {arguments : List Text} {t : FileTree} {p : Parsed} {s : Settings}
    (hp : CommandLine.parse usage.flags arguments = .ok p) (hne : p.arguments ≠ [])
    (hs : ((settingsOf env p).runOn t).1 = .ok s) :
    ((run env arguments).runOn t).1.status =
        worstStatus (((assembleAll env s (env.inColor s) p.arguments).runOn t).1.map Exit.status) ∧
      ((run env arguments).runOn t).2 = ((assembleAll env s (env.inColor s) p.arguments).runOn t).2 := by
  have hsome : p.arguments.isEmpty = false := by simpa using hne
  unfold run withOptions
  simp only [hp, hsome, Bool.false_eq_true, if_false, Script.runOn_bind, hs, settingsOf_tree]
  exact ⟨rfl, rfl⟩

theorem run_of_no_source {arguments : List Text} {p : Parsed} (hp : CommandLine.parse usage.flags arguments = .ok p)
    (hnone : p.arguments = []) (env : Environment) (t : FileTree) :
    (run env arguments).runOn t = ({ status := 1, err := usage.text }, t) := by
  unfold run withOptions
  simp only [hp, hnone, List.isEmpty_nil, if_true]
  rfl

/-- How a batch ends, with `t` before it and `t'` after it. -/
structure Batch (env : Environment) (s : Settings) (sources : List Text) (t : FileTree) (exit : Exit) (t' : FileTree) :
    Prop where
  last : treeBefore env s t sources sources.length = t'
  fatal : HasVerdict env s t sources .unreadable ∨ HasVerdict env s t sources .fatal → exit.status = 1
  errors : ¬ (HasVerdict env s t sources .unreadable ∨ HasVerdict env s t sources .fatal) →
    (∃ r, HasVerdict env s t sources (.erroneous r)) → exit.status = 2
  success : ¬ (HasVerdict env s t sources .unreadable ∨ HasVerdict env s t sources .fatal) →
    ¬ (∃ r, HasVerdict env s t sources (.erroneous r)) → exit.status = 0
  /-- A source that was there at first is read as it was. -/
  read : ∀ k path source, sources[k]? = some path → t.read path = .ok source →
    (treeBefore env s t sources k).read path = .ok source
  /-- A source that is not good changes nothing. -/
  unchanged : ∀ k path, sources[k]? = some path → (∀ r, verdict s (treeBefore env s t sources k) path ≠ .good r) →
    treeBefore env s t sources (k + 1) = treeBefore env s t sources k
  reported : ∀ k path r, sources[k]? = some path → verdict s (treeBefore env s t sources k) path = .erroneous r →
    ∃ source st, (treeBefore env s t sources k).read path = .ok source ∧ ErrorsOnce s.options source st r
  /-- A good source writes its files, which stay, and changes nothing else. -/
  written : ∀ k path r, sources[k]? = some path → verdict s (treeBefore env s t sources k) path = .good r →
    ∃ files, FilesOf env.encode r path (outputPaths path s.outputDir) s.symbols files ∧
      r.data.isSome = r.sections.data.isSome ∧
      FileTree.Changed (files.map fun f => t.work.ofPath f.1) (treeBefore env s t sources k)
        (treeBefore env s t sources (k + 1)) ∧
      ∀ f ∈ files, t'.read f.1 = .ok f.2
  /-- A file that no good source writes is as it was. -/
  elsewhere : ∀ l, (∀ k path, sources[k]? = some path → ∀ f ∈ outputsOf env s (treeBefore env s t sources k) path,
    t.work.ofPath f.1 ≠ l) → t'.fileAt l = t.fileAt l

/-- Given a command line and settings that can be taken, the tool without a source shows its usage, and with sources it
takes them as a batch. -/
theorem batch_outcome (env : Environment) {arguments : List Text} {t : FileTree} {p : Parsed} {s : Settings}
    (hp : CommandLine.parse usage.flags arguments = .ok p) (hs : ((settingsOf env p).runOn t).1 = .ok s)
    (h : Undisturbed env s t p.arguments) :
    (p.arguments = [] → (run env arguments).runOn t = ({ status := 1, err := usage.text }, t)) ∧
      (p.arguments ≠ [] → Batch env s p.arguments t ((run env arguments).runOn t).1 ((run env arguments).runOn t).2) := by
  refine ⟨fun hnone => run_of_no_source hp hnone env t, fun hne => ?_⟩
  obtain ⟨hstatus, htree⟩ := run_runOn hp hne hs
  have hlast : treeBefore env s t p.arguments p.arguments.length = ((run env arguments).runOn t).2 := by
    rw [htree, treeBefore_of_le (Nat.le_refl _)]
  rw [worstStatus_eq] at hstatus
  constructor
  · exact hlast
  · intro hfatal
    rw [hstatus, if_pos (h.one_mem_statuses.mpr hfatal)]
  · intro hfatal herrors
    rw [hstatus, if_neg (mt h.one_mem_statuses.mp hfatal), if_pos (h.two_mem_statuses.mpr herrors)]
  · intro hfatal herrors
    rw [hstatus, if_neg (mt h.one_mem_statuses.mp hfatal), if_neg (mt h.two_mem_statuses.mp herrors)]
  · intro k path source hk hread
    exact h.reads_kept (Nat.zero_le k) (List.mem_of_getElem? hk) hread
  · intro k path hk hbad
    rw [treeBefore_succ hk, (assembleFile_of_not_good hbad (env.inColor s)).2]
  · intro k path r hk hv
    obtain ⟨source, hread, hr, _⟩ := verdict_result (Or.inr hv)
    obtain ⟨st, once⟩ := Assembly.errorsOnce hr
    exact ⟨source, st, hread, once⟩
  · intro k path r hk hv
    have hw := h.written k path hk
    obtain ⟨_, _, hr, he⟩ := verdict_eq_good hv
    refine ⟨_, (writeOutputs_good hv hw).1, Assembly.data_isSome hr he, (h.step_changed hk).1, ?_⟩
    rw [← hlast]
    exact h.outputs_kept hk (List.getElem?_eq_some_iff.mp hk).1
  · intro l hl
    rw [← hlast]
    exact h.files_elsewhere hl _

/-- A data segment and a text segment. -/
def goodSource : Text := ".section .data\n.org 0x100\nv: .byte 7\n.section .text\n.org 0x0\nnop\n"

/-- Two lines that are no instruction. -/
def badSource : Text := ".section .text\n.org 0x0\nfrob\nnop\nfrob\n"

def mixedTree : FileTree where
  work := ⟨["w"]⟩
  files := [(⟨["pqr5asm.yaml", "w"]⟩, "symbols: true\n"), (⟨["good.s", "w"]⟩, goodSource), (⟨["bad.s", "w"]⟩, badSource)]

def mixedArguments : List Text := ["-j", "1", "good.s", "/w/bad.s", "gone.s"]

def mixedSources : List Text := ["good.s", "/w/bad.s", "gone.s"]

def mixedEnvironment : Environment := .standard 4 false

def mixedSettings : Settings := { symbols := true, color := "auto", jobs := 1 }

theorem mixed_undisturbed : Undisturbed mixedEnvironment mixedSettings mixedTree mixedSources := by
  have each : ∀ k : Fin 3,
      verdict mixedSettings (treeBefore mixedEnvironment mixedSettings mixedTree mixedSources k) (mixedSources.get k) ≠
        .aborted ∧
      writeFailure mixedEnvironment mixedSettings (treeBefore mixedEnvironment mixedSettings mixedTree mixedSources k)
        (mixedSources.get k) = none := by
    decide +kernel
  have position : ∀ (k : Nat) (path : Text), mixedSources[k]? = some path → ∃ i : Fin 3, k = i ∧ path = mixedSources.get i := by
    intro k path hk
    obtain ⟨hlt, rfl⟩ := List.getElem?_eq_some_iff.mp hk
    exact ⟨⟨k, hlt⟩, rfl, rfl⟩
  constructor
  · intro k path hk
    obtain ⟨i, rfl, rfl⟩ := position k path hk
    exact (each i).1
  · intro k path hk
    obtain ⟨i, rfl, rfl⟩ := position k path hk
    exact (each i).2
  · decide +kernel
  · decide +kernel

/-- A good source, one with errors and one that is not there: the first has its files, and the status is 1. -/
theorem batch_outcome_mixed :
    ∃ p, CommandLine.parse usage.flags mixedArguments = .ok p ∧ p.arguments = mixedSources ∧
      ((settingsOf mixedEnvironment p).runOn mixedTree).1 = .ok mixedSettings ∧
      ((run mixedEnvironment mixedArguments).runOn mixedTree).1.status = 1 ∧
      (∃ r, verdict mixedSettings mixedTree "good.s" = .good r) ∧
      Batch mixedEnvironment mixedSettings mixedSources mixedTree ((run mixedEnvironment mixedArguments).runOn mixedTree).1
        ((run mixedEnvironment mixedArguments).runOn mixedTree).2 := by
  have hp : (CommandLine.parse usage.flags mixedArguments).toOption = some ⟨[("j", .number 1)], mixedSources⟩ := by
    decide +kernel
  have hs : ((settingsOf mixedEnvironment ⟨[("j", .number 1)], mixedSources⟩).runOn mixedTree).1.toOption =
      some mixedSettings := by decide +kernel
  have hgone : verdict mixedSettings (treeBefore mixedEnvironment mixedSettings mixedTree mixedSources 2) "gone.s" =
      .unreadable := by decide +kernel
  have hgood : (match verdict mixedSettings mixedTree "good.s" with
      | .good _ => true
      | _ => false) = true := by decide +kernel
  have batch := (batch_outcome mixedEnvironment (Source.toOption_eq_some hp) (Source.toOption_eq_some hs)
    mixed_undisturbed).2 (by decide)
  refine ⟨_, Source.toOption_eq_some hp, rfl, Source.toOption_eq_some hs, ?_, ?_, batch⟩
  · exact batch.fatal (Or.inl ⟨2, "gone.s", rfl, hgone⟩)
  · split at hgood
    · rename_i r hr
      exact ⟨r, hr⟩
    · cases hgood

/-- With no source, no source is at fault, and the status is 1 all the same. -/
theorem status_of_no_source :
    ∃ p s, CommandLine.parse usage.flags ["-j", "1"] = .ok p ∧ p.arguments = [] ∧
      ((settingsOf (.standard 1 false) p).runOn {}).1 = .ok s ∧ s.jobs = 1 ∧
      Undisturbed (.standard 1 false) s {} p.arguments ∧ (∀ v, ¬ HasVerdict (.standard 1 false) s {} p.arguments v) ∧
      ((run (.standard 1 false) ["-j", "1"]).runOn {}).1.status = 1 := by
  have hp : (CommandLine.parse usage.flags ["-j", "1"]).toOption = some ⟨[("j", .number 1)], []⟩ := by decide +kernel
  have hs : ((settingsOf (.standard 1 false) ⟨[("j", .number 1)], []⟩).runOn {}).1.toOption =
      some { color := "auto", jobs := 1 } := by decide +kernel
  have hnone : ∀ (k : Nat) (path : Text), ([] : List Text)[k]? ≠ some path := by simp
  refine ⟨_, _, Source.toOption_eq_some hp, rfl, Source.toOption_eq_some hs, rfl, ?_, ?_, by decide +kernel⟩
  · exact ⟨fun k path hk => absurd hk (hnone k path), fun k path hk => absurd hk (hnone k path),
      fun a ha => absurd ha List.not_mem_nil, fun a ha => absurd ha List.not_mem_nil⟩
  · rintro v ⟨k, path, hk, _⟩
    exact hnone k path hk

end Tools.Assembler

end Rv32Tools
