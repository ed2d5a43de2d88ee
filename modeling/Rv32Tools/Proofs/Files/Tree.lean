import Rv32Tools.Files.Script
import Rv32Tools.Proofs.Files.Path

/-
  Rv32Tools.Proofs.Files.Tree — what scripts do to a tree of files.

  A script in two parts is the second part run on the tree that the first leaves (`runOn_bind`).

  The place that a path names, seen from a working directory, is where the elements of its shortest form lead
  (`ofPath_eq_ofStack`), so a path and its shortest form name one place (`ofPath_clean`), a path behind that of the
  working directory names what it names alone (`ofPath_below`), and a path that ends in a name leads to an entry of its
  directory (`ofPath_eq_child`).

  Seen from outside, a tree is the directories that paths lead through and the content of the file at each place
  (`fileAt`). A path that leads anywhere leads to the place that its text names (`locate_eq_ok`), so what a request does
  is said by place: a write sets the file at its place (`write_eq_ok`, `fileAt_put`), and directories are made where
  nothing was (`makeDirectories_changed`). `Changed ps t t'` sums this up for any number of requests: no directory is
  lost, and files differ at the places in `ps` only. Whatever could be read elsewhere still is, with the same content
  (`Changed.read`). The working directory is the same throughout (`runOn_work`).
-/

namespace Rv32Tools

/-! ## Scripts -/

namespace Script

variable {α β : Type}

@[simp] theorem runOn_pure (a : α) (t : FileTree) : (pure a : Script α).runOn t = (a, t) := rfl

@[simp] theorem runOn_bind (x : Script α) (f : α → Script β) (t : FileTree) :
    (x >>= f).runOn t = (f (x.runOn t).1).runOn (x.runOn t).2 := by
  show (x.bind f).runOn t = _
  induction x generalizing t with
  | done a => rfl
  | read path next ih => exact ih (t.read path) t
  | write path content next ih =>
    simp only [bind, runOn]
    cases t.write path content with
    | ok t' => exact ih none t'
    | error e => exact ih (some e) t
  | makeDirectories path next ih =>
    simp only [bind, runOn]
    cases t.makeDirectories path with
    | ok t' => exact ih none t'
    | error e => exact ih (some e) t

@[simp] theorem runOn_readFile (path : Text) (t : FileTree) : (readFile path).runOn t = (t.read path, t) := rfl

/-- A write that reports no error has left the tree with the file written. -/
theorem runOn_writeFile {path content : Text} {t t' : FileTree} :
    (writeFile path content).runOn t = (none, t') ↔ t.write path content = .ok t' := by
  simp only [writeFile, runOn]
  cases t.write path content <;> simp

theorem runOn_makeDirs {path : Text} {t t' : FileTree} :
    (makeDirs path).runOn t = (none, t') ↔ t.makeDirectories path = .ok t' := by
  simp only [makeDirs, runOn]
  cases t.makeDirectories path <;> simp

end Script

/-! ## Places -/

/-- Where the elements of a path are followed from. -/
def Location.origin (work : Location) (rooted : Bool) : Location := if rooted then .root else work

/-- The place that the text of a path names, seen from a working directory. -/
def Location.ofPath (work : Location) (path : Text) : Location :=
  (Path.elements path).foldl Location.follow (.origin work (Path.isAbsolute path))

namespace Location

theorem follow_name {e : Text} (h : Path.IsName e) (l : Location) : l.follow e = l.child e := by
  have hempty : e.isEmpty = false := List.isEmpty_eq_false_iff.mpr h.ne_nil
  rw [follow, hempty, beq_eq_false_iff_ne.mpr h.ne_here, beq_eq_false_iff_ne.mpr h.ne_up]
  rfl

@[simp] theorem parent_child (l : Location) (name : Text) : (l.child name).parent = l := rfl

theorem child_inj {l l' : Location} {name name' : Text} : l.child name = l'.child name' ↔ l = l' ∧ name = name' := by
  cases l
  cases l'
  simp [child, and_comm]

section

variable (work : Location)

/-- The place that a stack of elements leads to, innermost first. -/
def ofStack (rooted : Bool) (done : List Text) : Location := done.reverse.foldl follow (origin work rooted)

theorem ofStack_cons (rooted : Bool) (e : Text) (done : List Text) :
    ofStack work rooted (e :: done) = (ofStack work rooted done).follow e := by
  rw [ofStack, List.reverse_cons, List.foldl_append, List.foldl_cons, List.foldl_nil, ofStack]

/-- Following an element and entering it on the stack come to the same place. -/
theorem follow_ofStack {rooted : Bool} {done : List Text} (h : Path.Normal rooted done) (e : Text) :
    (ofStack work rooted done).follow e = ofStack work rooted (Path.enter rooted done e) := by
  rcases Path.isName_or e with hname | rfl | rfl | rfl
  · rw [Path.enter_name hname, ofStack_cons]
  · rfl
  · rfl
  · cases h with
    | start => cases rooted <;> rfl
    | up free ups below =>
      subst free
      rw [Path.enter_up_ups (List.forall_mem_cons.mpr ⟨rfl, ups⟩)]
      exact (ofStack_cons _ _ _ _).symm
    | name isName noSlash below =>
      rw [Path.enter_up_name isName.ne_up, ofStack_cons, follow_name isName]
      rfl

theorem foldl_follow_ofStack {rooted : Bool} {done es : List Text} (h : Path.Normal rooted done)
    (hes : ∀ e ∈ es, Path.slash ∉ e) :
    es.foldl follow (ofStack work rooted done) = ofStack work rooted (es.foldl (Path.enter rooted) done) := by
  induction es generalizing done with
  | nil => rfl
  | cons e es ih =>
    have hes := List.forall_mem_cons.mp hes
    rw [List.foldl_cons, List.foldl_cons, follow_ofStack work h, ih (h.enter hes.1) hes.2]

/-- A path leads where the elements of its shortest form lead. -/
theorem ofPath_eq_ofStack (p : Text) : ofPath work p = ofStack work (Path.isAbsolute p) (Path.stack p) :=
  foldl_follow_ofStack work .start fun _ he => Path.slash_not_mem_of_mem_elements he

theorem ofPath_clean (p : Text) : ofPath work (Path.clean p) = ofPath work p := by
  have h := Path.stack_normal p
  rw [Path.clean_eq_written, ofPath_eq_ofStack, ofPath_eq_ofStack, Path.stack_written h, Path.isAbsolute_written h]

theorem ofPath_leads {front w : Text} (hfront : Path.Leads front) (hw : Path.slash ∉ w) :
    ofPath work (front ++ w) = (ofPath work front).follow w := by
  rw [ofPath, ofPath, Path.isAbsolute_append front hw]
  rcases hfront with rfl | ⟨a, rfl⟩
  · rw [List.nil_append, Path.elements_of_not_mem hw]
    rfl
  · rw [List.append_assoc, List.singleton_append, Path.elements_append_slash, Path.elements_append_slash,
      Path.elements_of_not_mem hw, List.foldl_append, List.foldl_append]
    rfl

/-- Behind the path of a directory, a relative path names what it names from that directory. -/
theorem ofPath_below {dir p : Text} (hdir : dir ≠ []) (hp : Path.isAbsolute p = false) :
    ofPath work (dir ++ Path.slash :: p) = ofPath (ofPath work dir) p := by
  have hrooted : Path.isAbsolute (dir ++ Path.slash :: p) = Path.isAbsolute dir := by
    obtain ⟨b, dir, rfl⟩ := List.exists_cons_of_ne_nil hdir
    rfl
  rw [ofPath, Path.elements_append_slash, List.foldl_append, hrooted, ofPath, hp]
  rfl

example : ofPath ⟨["w"]⟩ "/w/a_imem.bin" = ofPath ⟨["w"]⟩ "a_imem.bin" := by decide

/-- Paths that differ in their ending name entries of one directory. -/
theorem ofPath_append (p : Text) :
    ∃ l, ∀ ending : Text, Path.slash ∉ ending → Path.IsName (Path.lastElement p ++ ending) →
      ofPath work (p ++ ending) = child l (Path.lastElement p ++ ending) := by
  obtain ⟨front, hfront, hp, hlast⟩ := Path.exists_leads p
  refine ⟨ofPath work front, fun ending hending hname => ?_⟩
  have hboth : Path.slash ∉ Path.lastElement p ++ ending := by simp [hlast, hending]
  calc ofPath work (p ++ ending)
      = ofPath work (front ++ (Path.lastElement p ++ ending)) := by rw [← List.append_assoc, ← hp]
    _ = child (ofPath work front) (Path.lastElement p ++ ending) := by
      rw [ofPath_leads work hfront hboth, follow_name hname]

/-- A path that ends in a name leads to the entry of that name in its directory. -/
theorem ofPath_eq_child {p : Text} (h : Path.IsName (Path.lastElement p)) :
    ofPath work p = child (ofPath work (Path.directory p)) (Path.lastElement p) := by
  obtain ⟨front, hfront, hp, hlast⟩ := Path.exists_leads p
  have hdir : Path.directory p = Path.clean front := (congrArg Path.directory hp).trans (hfront.directory hlast)
  calc ofPath work p = ofPath work (front ++ Path.lastElement p) := congrArg (ofPath work) hp
    _ = child (ofPath work front) (Path.lastElement p) := by rw [ofPath_leads work hfront hlast, follow_name h]
    _ = child (ofPath work (Path.directory p)) (Path.lastElement p) := by rw [hdir, ofPath_clean]

end

end Location

namespace FileTree

variable {t t' : FileTree}

theorem walk_eq_ok {l m : Location} {elements : List Text} (h : t.walk l elements = .ok m) :
    m = elements.foldl Location.follow l := by
  induction elements generalizing l with
  | nil =>
    cases h
    rfl
  | cons element elements ih =>
    simp only [walk] at h
    split at h
    · exact ih h
    · cases h
    · cases h

theorem locate_eq_ok {path : Text} {l : Location} (h : t.locate path = .ok l) : l = .ofPath t.work path := by
  unfold locate at h
  split at h
  · cases h
  · exact walk_eq_ok h

/-- The content of the file at a place. -/
def fileAt (t : FileTree) (l : Location) : Option Text :=
  match t.entry l with
  | .file content => some content
  | _ => none

theorem read_eq_ok {path content : Text} :
    t.read path = .ok content ↔
      t.locate path = .ok (.ofPath t.work path) ∧ t.fileAt (.ofPath t.work path) = some content := by
  unfold read
  cases hl : t.locate path with
  | error fault => simp
  | ok l =>
    obtain rfl := locate_eq_ok hl
    cases he : t.entry (.ofPath t.work path) <;> simp [fileAt, he]

/-! ## Requests -/

theorem lookup_filter_ne (files : List (Location × Text)) {l m : Location} (h : m ≠ l) :
    (files.filter (·.1 ≠ l)).lookup m = files.lookup m := by
  induction files with
  | nil => rfl
  | cons p files ih =>
    rw [List.lookup_cons, List.filter_cons]
    by_cases hp : p.1 = l
    · have hm : (m == p.1) = false := by simpa [hp] using h
      rw [hm, if_neg (by simpa using hp), ih]
    · rw [if_pos (by simpa using hp), List.lookup_cons, ih]

theorem entry_put {l : Location} (h : t.entry l ≠ .directory) (content : Text) (m : Location) :
    (t.put l content).entry m = if m = l then .file content else t.entry m := by
  by_cases hm : m = l
  · subst hm
    have hplace : (m.names.isSuffixOf t.work.names || t.directories.contains m) = false := by
      cases hd : (m.names.isSuffixOf t.work.names || t.directories.contains m) with
      | false => rfl
      | true =>
        rw [entry, if_pos hd] at h
        exact absurd rfl h
    have hgone : (t.files.filter (·.1 ≠ m)).lookup m = none := by
      rw [List.lookup_eq_none_iff]
      intro p hp
      have hne : p.1 ≠ m := by simpa using (List.mem_filter.mp hp).2
      exact bne_iff_ne.mpr hne.symm
    have hlookup : (t.files.filter (·.1 ≠ m) ++ [(m, content)]).lookup m = some content := by
      rw [List.lookup_append, hgone]
      simp
    simp only [entry, put, hplace, hlookup, Bool.false_eq_true, if_false, if_true]
  · have hlast : [(l, content)].lookup m = none := by
      rw [List.lookup_cons, beq_eq_false_iff_ne.mpr hm]
      rfl
    simp only [entry, put, List.lookup_append, lookup_filter_ne t.files hm, hlast, Option.or_none, if_neg hm]

theorem fileAt_put {l : Location} (h : t.entry l ≠ .directory) (content : Text) (m : Location) :
    (t.put l content).fileAt m = if m = l then some content else t.fileAt m := by
  unfold fileAt
  rw [entry_put h]
  by_cases hm : m = l
  · simp [hm]
  · simp [hm]

/-- A write sets the file at the place that its path names. -/
theorem write_eq_ok {path content : Text} (h : t.write path content = .ok t') :
    t.locate path = .ok (.ofPath t.work path) ∧ t.entry (.ofPath t.work path) ≠ .directory ∧ t' = t.put (.ofPath t.work path) content := by
  unfold write at h
  cases hl : t.locate path with
  | error fault =>
    rw [hl] at h
    cases h
  | ok l =>
    obtain rfl := locate_eq_ok hl
    simp only [hl] at h
    by_cases hd : (t.entry (.ofPath t.work path) == .directory) = true
    · rw [if_pos hd] at h
      cases h
    · rw [if_neg hd] at h
      cases h
      exact ⟨rfl, by simpa using hd, rfl⟩

/-- The working directory is the same, no directory of `t` is missing in `t'`, and the files are the same but for those
at the places in `ps`. -/
structure Changed (ps : List Location) (t t' : FileTree) : Prop where
  work : t'.work = t.work
  directories : ∀ l, t.entry l = .directory → t'.entry l = .directory
  files : ∀ l, l ∉ ps → t'.fileAt l = t.fileAt l

theorem Changed.refl (t : FileTree) : Changed [] t t := ⟨rfl, fun _ h => h, fun _ _ => rfl⟩

theorem Changed.trans {ps qs : List Location} {t t' t'' : FileTree} (h : Changed ps t t') (h' : Changed qs t' t'') :
    Changed (ps ++ qs) t t'' where
  work := h'.work.trans h.work
  directories l hl := h'.directories l (h.directories l hl)
  files := by
    intro l hl
    rw [List.mem_append, not_or] at hl
    rw [h'.files l hl.2, h.files l hl.1]

theorem Changed.walk {ps : List Location} (h : Changed ps t t') {l m : Location} {elements : List Text}
    (hw : t.walk l elements = .ok m) : t'.walk l elements = .ok m := by
  induction elements generalizing l with
  | nil => exact hw
  | cons element elements ih =>
    simp only [FileTree.walk] at hw ⊢
    cases he : t.entry l with
    | directory =>
      rw [he] at hw
      rw [h.directories l he]
      exact ih hw
    | file content =>
      rw [he] at hw
      cases hw
    | missing =>
      rw [he] at hw
      cases hw

theorem Changed.locate {ps : List Location} (h : Changed ps t t') {path : Text} {l : Location}
    (hl : t.locate path = .ok l) : t'.locate path = .ok l := by
  unfold FileTree.locate at hl ⊢
  rw [h.work]
  split at hl
  · cases hl
  · rename_i hpath
    rw [if_neg hpath]
    exact h.walk hl

/-- What can be read at a place that was left alone can still be read. -/
theorem Changed.read {ps : List Location} (h : Changed ps t t') {path content : Text} (hp : .ofPath t.work path ∉ ps)
    (hr : t.read path = .ok content) : t'.read path = .ok content := by
  rw [read_eq_ok] at hr ⊢
  rw [h.work]
  exact ⟨h.locate hr.1, (h.files _ hp).trans hr.2⟩

theorem write_changed {path content : Text} (h : t.write path content = .ok t') :
    Changed [.ofPath t.work path] t t' ∧ t'.read path = .ok content := by
  obtain ⟨hl, hd, rfl⟩ := write_eq_ok h
  have changed : Changed [.ofPath t.work path] t (t.put (.ofPath t.work path) content) := by
    constructor
    · rfl
    · intro l hdir
      have hne : l ≠ .ofPath t.work path := by
        rintro rfl
        exact hd hdir
      rw [entry_put hd, if_neg hne, hdir]
    · intro l hne
      rw [fileAt_put hd, if_neg (by simpa using hne)]
  refine ⟨changed, read_eq_ok.mpr ⟨changed.locate hl, ?_⟩⟩
  rw [changed.work, fileAt_put hd, if_pos rfl]

/-- A directory made where nothing was changes no file. -/
theorem changed_of_missing {t : FileTree} {l : Location} (h : t.entry l = .missing) :
    Changed [] t { t with directories := t.directories ++ [l] } := by
  have entry_ne : ∀ m, m ≠ l → entry { t with directories := t.directories ++ [l] } m = t.entry m := by
    intro m hm
    simp [entry, hm]
  constructor
  · rfl
  · intro m hm
    by_cases he : m = l
    · rw [he, h] at hm
      cases hm
    · rw [entry_ne m he, hm]
  · intro m _
    unfold fileAt
    by_cases he : m = l
    · rw [he, h]
      simp [entry]
    · rw [entry_ne m he]

theorem makeAlong_changed {t t' : FileTree} {l : Location} {done : Text} {elements : List Text}
    (h : t.makeAlong l done elements = .ok t') : Changed [] t t' := by
  induction elements generalizing t l done with
  | nil =>
    cases h
    exact .refl _
  | cons element elements ih =>
    simp only [makeAlong] at h
    split at h
    · exact ih h
    · cases h
    · rename_i hmissing
      exact (changed_of_missing hmissing).trans (ih h)

theorem makeDirectories_changed {path : Text} (h : t.makeDirectories path = .ok t') : Changed [] t t' := by
  unfold makeDirectories at h
  split at h
  · exact makeAlong_changed h
  · exact makeAlong_changed h

end FileTree

/-- No script leaves the working directory. -/
theorem Script.runOn_work {α : Type} (x : Script α) (t : FileTree) : (x.runOn t).2.work = t.work := by
  induction x generalizing t with
  | done a => rfl
  | read path next ih => exact ih (t.read path) t
  | write path content next ih =>
    simp only [runOn]
    cases hw : t.write path content with
    | ok t' => exact (ih none t').trans (FileTree.write_changed hw).1.work
    | error e => exact ih (some e) t
  | makeDirectories path next ih =>
    simp only [runOn]
    cases hm : t.makeDirectories path with
    | ok t' => exact (ih none t').trans (FileTree.makeDirectories_changed hm).work
    | error e => exact ih (some e) t

end Rv32Tools
