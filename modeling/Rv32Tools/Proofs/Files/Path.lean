import Rv32Tools.Files.Path
import Rv32Tools.Proofs.Text.Words

/-
  Rv32Tools.Proofs.Files.Path — the shortest form of a path, and the parts of a file name.

  Cleaning works on a stack of elements, innermost first. It keeps the stack `Normal`: names, and below them a `..` for
  each level above the start (`stack_normal`). Such a stack has one text (`clean_eq_written`), and its text is cleaned to
  itself and read back as the same stack (`clean_written`, `written_eq_iff`).

  Whatever is written where the next element of a stack goes (`ahead`) has the stack as its directory and is itself the
  last element (`directory_ahead`, `lastElement_ahead`), as long as there is no slash in it.

  A file name is cut before its last dot (`Parted`), in one way only (`Parted.unique`); the part in front is the stem of
  the path (`Parted.stem_eq`).

  A stem put below a directory, with an ending behind it, should be an entry of the directory (`IsEntry`). If it is a name
  it is. An empty stem, `.` and `..` are cleaned away with the slash in front of them, and the ending falls on the name of
  the directory instead. Only where there is no such name do they keep their place (`Keeps`, `isEntry_join_iff`): an
  empty stem below the root, `.` below `.`, and `..` below a path that has nothing to take back.
-/

namespace Rv32Tools

/-! ## The last cut of a text -/

namespace Text

variable {c : UInt8} {s t : Text}

theorem exists_last_cut (h : c ∈ s) : ∃ a t, s = a ++ c :: t ∧ c ∉ t := by
  obtain ⟨t, a, hs, ht⟩ := List.eq_append_cons_of_mem (List.mem_reverse.mpr h)
  refine ⟨a.reverse, t.reverse, ?_, fun hc => ht (List.mem_reverse.mp hc)⟩
  rw [← List.reverse_reverse s, hs, List.reverse_append, List.reverse_cons, List.append_assoc, List.singleton_append]

theorem ne_of_not_mem (h : c ∉ t) : ∀ b ∈ t, (b != c) = true :=
  fun _ hb => bne_iff_ne.mpr fun he => h (he ▸ hb)

theorem takeWhile_last_cut (a : Text) (h : c ∉ t) : ((a ++ c :: t).reverse.takeWhile (· != c)).reverse = t := by
  have ht := ne_of_not_mem fun hc => h (List.mem_reverse.mp hc)
  rw [List.reverse_append, List.reverse_cons, List.append_assoc, List.takeWhile_append_of_pos ht, List.singleton_append,
    List.takeWhile_cons_of_neg (by simp), List.append_nil, List.reverse_reverse]

theorem dropWhile_last_cut (a : Text) (h : c ∉ t) :
    ((a ++ c :: t).reverse.dropWhile (· != c)).reverse = a ++ [c] := by
  have ht := ne_of_not_mem fun hc => h (List.mem_reverse.mp hc)
  rw [List.reverse_append, List.reverse_cons, List.append_assoc, List.dropWhile_append_of_pos ht, List.singleton_append,
    List.dropWhile_cons_of_neg (by simp), List.reverse_cons, List.reverse_reverse]

end Text

namespace Path

/-! ## Elements -/

/-- An element that names an entry of a directory. -/
structure IsName (e : Text) : Prop where
  ne_nil : e ≠ []
  ne_here : e ≠ "."
  ne_up : e ≠ ".."

theorem isName_or (e : Text) : IsName e ∨ e = [] ∨ e = "." ∨ e = ".." := by
  by_cases hnil : e = []
  · exact .inr (.inl hnil)
  · by_cases hhere : e = "."
    · exact .inr (.inr (.inl hhere))
    · by_cases hup : e = ".."
      · exact .inr (.inr (.inr hup))
      · exact .inl ⟨hnil, hhere, hup⟩

theorem isName_of_length {e : Text} (h : 2 < e.length) : IsName e := by
  have hshort : ∀ short : Text, short.length ≤ 2 → e ≠ short := by
    intro short hs he
    rw [he] at h
    omega
  exact ⟨hshort [] (by decide), hshort "." (by decide), hshort ".." (by decide)⟩

variable {rooted : Bool} {done : List Text} {e n w : Text}

theorem enter_name (h : IsName e) : enter rooted done e = e :: done := by
  have hempty : e.isEmpty = false := List.isEmpty_eq_false_iff.mpr h.ne_nil
  unfold enter
  rw [hempty, beq_eq_false_iff_ne.mpr h.ne_here, beq_eq_false_iff_ne.mpr h.ne_up]
  rfl

@[simp] theorem enter_nil : enter rooted done [] = done := rfl

@[simp] theorem enter_here : enter rooted done "." = done := rfl

theorem enter_up_name (h : n ≠ "..") : enter rooted (n :: done) ".." = done := by
  show (if (n == (".." : Text)) = true then _ else _) = _
  rw [beq_eq_false_iff_ne.mpr h]
  rfl

/-- Above the start there is nothing to take back. -/
theorem enter_up_ups (h : ∀ e ∈ done, e = "..") : enter false done ".." = (".." : Text) :: done := by
  cases done with
  | nil => rfl
  | cons u done =>
    rw [h u List.mem_cons_self]
    rfl

theorem slash_not_mem_of_mem_elements {p : Text} (h : e ∈ elements p) : slash ∉ e := by
  intro hs
  have := (Text.pieces_spec p).2 e h
  exact absurd (this.2 slash hs) (by decide)

theorem elements_of_not_mem (h : slash ∉ w) : elements w = [w] :=
  Text.pieces_of_neg fun _ hb => beq_eq_false_iff_ne.mpr fun he => h (he ▸ hb)

theorem elements_append_slash (p w : Text) : elements (p ++ slash :: w) = elements p ++ elements w :=
  Text.pieces_append_sep p rfl w

/-! ## Normal stacks -/

/-- Elements that nothing can be taken back from, innermost first: names, and `..` only above the start. -/
inductive Normal (rooted : Bool) : List Text → Prop
  | start : Normal rooted []
  | up {done : List Text} (free : rooted = false) (ups : ∀ e ∈ done, e = "..") (below : Normal rooted done) :
      Normal rooted (".." :: done)
  | name {n : Text} {done : List Text} (isName : IsName n) (noSlash : slash ∉ n) (below : Normal rooted done) :
      Normal rooted (n :: done)

theorem Normal.enter (h : Normal rooted done) (he : slash ∉ e) : Normal rooted (Path.enter rooted done e) := by
  rcases isName_or e with hname | rfl | rfl | rfl
  · rw [enter_name hname]
    exact .name hname he h
  · exact h
  · exact h
  · cases h with
    | start =>
      cases rooted with
      | true => exact .start
      | false => exact .up rfl (fun e he => absurd he List.not_mem_nil) .start
    | @up done free ups below =>
      subst free
      have hall : ∀ e ∈ (".." : Text) :: done, e = ".." := List.forall_mem_cons.mpr ⟨rfl, ups⟩
      rw [enter_up_ups hall]
      exact .up rfl hall (.up rfl ups below)
    | name isName noSlash below =>
      rw [enter_up_name isName.ne_up]
      exact below

theorem Normal.foldl_enter {es : List Text} (h : Normal rooted done) (hes : ∀ e ∈ es, slash ∉ e) :
    Normal rooted (es.foldl (Path.enter rooted) done) := by
  induction es generalizing done with
  | nil => exact h
  | cons e es ih =>
    have hes := List.forall_mem_cons.mp hes
    exact ih (h.enter hes.1) hes.2

/-- An element on top of a normal stack got there by being entered. -/
theorem Normal.enter_top (h : Normal rooted (n :: done)) : Path.enter rooted done n = n :: done := by
  cases h with
  | up free ups below =>
    subst free
    exact enter_up_ups ups
  | name isName noSlash below => exact enter_name isName

theorem Normal.of_cons (h : Normal rooted (n :: done)) : Normal rooted done := by
  cases h with
  | up free ups below => exact below
  | name isName noSlash below => exact below

theorem Normal.top (h : Normal rooted (n :: done)) : n ≠ [] ∧ slash ∉ n := by
  cases h with
  | up free ups below => exact ⟨by decide, by decide⟩
  | name isName noSlash below => exact ⟨isName.ne_nil, noSlash⟩

theorem Normal.foldl_reverse (h : Normal rooted done) : done.reverse.foldl (Path.enter rooted) [] = done := by
  induction done with
  | nil => rfl
  | cons n done ih => rw [List.reverse_cons, List.foldl_append, ih h.of_cons, List.foldl_cons, List.foldl_nil, h.enter_top]

/-- The elements of the shortest form of a path, innermost first. -/
def stack (p : Text) : List Text := (elements p).foldl (enter (isAbsolute p)) []

theorem stack_normal (p : Text) : Normal (isAbsolute p) (stack p) :=
  Normal.start.foldl_enter fun _ he => slash_not_mem_of_mem_elements he

/-! ## The text of a stack -/

/-- The text of a stack of elements. -/
def written (rooted : Bool) (done : List Text) : Text :=
  if rooted then slash :: Text.join [slash] done.reverse
  else if done.isEmpty then "."
  else Text.join [slash] done.reverse

/-- The text of a stack of elements up to where the next element goes. -/
def ahead (rooted : Bool) : List Text → Text
  | [] => if rooted then [slash] else []
  | n :: done => ahead rooted done ++ (n ++ [slash])

theorem clean_eq_written (p : Text) : clean p = written (isAbsolute p) (stack p) := by
  rw [written, ← List.isEmpty_reverse]
  rfl

theorem written_cons (rooted : Bool) (n : Text) (done : List Text) : written rooted (n :: done) = ahead rooted done ++ n := by
  induction done generalizing n with
  | nil => cases rooted <;> simp [written, ahead, Text.join]
  | cons m done ih =>
    have hjoin : Text.join [slash] (n :: m :: done).reverse = Text.join [slash] (m :: done).reverse ++ slash :: n := by
      rw [List.reverse_cons, Text.join_concat _ (by simp), List.singleton_append]
    have hm := ih m
    have hsplit : ahead rooted (m :: done) ++ n = written rooted (m :: done) ++ slash :: n := by simp [ahead, hm]
    rw [hsplit, written, written, hjoin]
    cases rooted <;> rfl

theorem elements_ahead (h : Normal rooted done) (hw : slash ∉ w) :
    elements (ahead rooted done ++ w) = (if rooted then [[]] else []) ++ done.reverse ++ [w] := by
  induction done generalizing w with
  | nil =>
    cases rooted with
    | true => exact (elements_append_slash [] w).trans (congrArg ([[]] ++ ·) (elements_of_not_mem hw))
    | false => exact elements_of_not_mem hw
  | cons n done ih =>
    have hsplit : ahead rooted (n :: done) ++ w = (ahead rooted done ++ n) ++ slash :: w := by simp [ahead]
    rw [hsplit, elements_append_slash, ih h.of_cons h.top.2, elements_of_not_mem hw, List.reverse_cons,
      ← List.append_assoc]

theorem isAbsolute_ahead (h : Normal rooted done) (hw : w.head? ≠ some slash) :
    isAbsolute (ahead rooted done ++ w) = rooted := by
  induction done generalizing w with
  | nil =>
    cases rooted with
    | true => rfl
    | false => exact beq_eq_false_iff_ne.mpr hw
  | cons n done ih =>
    have hsplit : ahead rooted (n :: done) ++ w = ahead rooted done ++ (n ++ slash :: w) := by simp [ahead]
    rw [hsplit]
    refine ih h.of_cons fun hhead => ?_
    rw [List.head?_append, List.head?_eq_some_head h.top.1, Option.some_or, Option.some.injEq] at hhead
    exact h.top.2 (hhead ▸ List.head_mem h.top.1)

theorem head?_ne_slash (h : slash ∉ w) : w.head? ≠ some slash := fun he => h (List.mem_of_mem_head? he)

/-- Cleaning a stack with one more element is entering the element. -/
theorem stack_ahead (h : Normal rooted done) (hw : slash ∉ w) : stack (ahead rooted done ++ w) = enter rooted done w := by
  rw [stack, elements_ahead h hw, isAbsolute_ahead h (head?_ne_slash hw), List.foldl_append, List.foldl_append]
  have hlead : (if rooted then [[]] else []).foldl (enter rooted) [] = [] := by cases rooted <;> rfl
  rw [hlead, h.foldl_reverse]
  rfl

theorem clean_ahead (h : Normal rooted done) (hw : slash ∉ w) :
    clean (ahead rooted done ++ w) = written rooted (enter rooted done w) := by
  rw [clean_eq_written, stack_ahead h hw, isAbsolute_ahead h (head?_ne_slash hw)]

/-- The text of a stack, cut where its last element starts. The empty stack is written `.`, or as nothing behind the root. -/
theorem written_eq_ahead (h : Normal rooted done) :
    ∃ rest last, written rooted done = ahead rooted rest ++ last ∧ Normal rooted rest ∧ slash ∉ last ∧
      enter rooted rest last = done ∧
      (done = last :: rest ∨ done = [] ∧ rest = [] ∧ last = if rooted then [] else ".") := by
  cases done with
  | nil =>
    cases rooted with
    | true => exact ⟨[], [], rfl, .start, by decide, rfl, .inr ⟨rfl, rfl, rfl⟩⟩
    | false => exact ⟨[], ".", rfl, .start, by decide, rfl, .inr ⟨rfl, rfl, rfl⟩⟩
  | cons n done => exact ⟨done, n, written_cons rooted n done, h.of_cons, h.top.2, h.enter_top, .inl rfl⟩

theorem clean_written (h : Normal rooted done) : clean (written rooted done) = written rooted done := by
  obtain ⟨rest, last, htext, hrest, hlast, henter, -⟩ := written_eq_ahead h
  rw [htext, clean_ahead hrest hlast, henter, htext]

theorem stack_written (h : Normal rooted done) : stack (written rooted done) = done := by
  obtain ⟨rest, last, htext, hrest, hlast, henter, -⟩ := written_eq_ahead h
  rw [htext, stack_ahead hrest hlast, henter]

theorem isAbsolute_written (h : Normal rooted done) : isAbsolute (written rooted done) = rooted := by
  obtain ⟨rest, last, htext, hrest, hlast, -⟩ := written_eq_ahead h
  rw [htext, isAbsolute_ahead hrest (head?_ne_slash hlast)]

theorem written_eq_iff {rooted' : Bool} {done' : List Text} (h : Normal rooted done) (h' : Normal rooted' done') :
    written rooted done = written rooted' done' ↔ rooted = rooted' ∧ done = done' := by
  constructor
  · intro heq
    exact ⟨by rw [← isAbsolute_written h, heq, isAbsolute_written h'], by rw [← stack_written h, heq, stack_written h']⟩
  · intro ⟨hrooted, hdone⟩
    rw [hrooted, hdone]

theorem clean_ne_nil (p : Text) : clean p ≠ [] := by
  intro hnil
  have hstack := stack_normal p
  rw [clean_eq_written] at hnil
  obtain ⟨rest, last, htext, -, -, -, hcase⟩ := written_eq_ahead hstack
  rw [htext, List.append_eq_nil_iff] at hnil
  rcases hcase with hcons | ⟨-, rfl, hlast⟩
  · rw [hcons] at hstack
    exact hstack.top.1 hnil.2
  · cases hroot : isAbsolute p with
    | true =>
      rw [hroot] at hnil
      cases hnil.1
    | false =>
      rw [hroot] at hlast
      rw [hlast] at hnil
      exact absurd hnil.2 (by decide)

/-! ## The directory and the last element -/

/-- What stands in front of the last element of a path. -/
def Leads (front : Text) : Prop := front = [] ∨ ∃ a, front = a ++ [slash]

theorem leads_ahead (rooted : Bool) (done : List Text) : Leads (ahead rooted done) := by
  cases done with
  | nil =>
    cases rooted with
    | true => exact .inr ⟨[], rfl⟩
    | false => exact .inl rfl
  | cons n done => exact .inr ⟨ahead rooted done ++ n, (List.append_assoc _ _ _).symm⟩

variable {front : Text}

theorem Leads.lastElement (h : Leads front) (hw : slash ∉ w) : lastElement (front ++ w) = w := by
  rcases h with rfl | ⟨a, rfl⟩
  · have hall := Text.ne_of_not_mem fun hs => hw (List.mem_reverse.mp hs)
    rw [Path.lastElement, List.nil_append, List.takeWhile_eq_self_iff.mpr hall, List.reverse_reverse]
  · rw [Path.lastElement, List.append_assoc, List.singleton_append, Text.takeWhile_last_cut a hw]

theorem Leads.directory (h : Leads front) (hw : slash ∉ w) : directory (front ++ w) = clean front := by
  rcases h with rfl | ⟨a, rfl⟩
  · have hall := Text.ne_of_not_mem fun hs => hw (List.mem_reverse.mp hs)
    rw [Path.directory, List.nil_append, List.dropWhile_eq_nil_iff.mpr hall, List.reverse_nil]
  · rw [Path.directory, List.append_assoc, List.singleton_append, Text.dropWhile_last_cut a hw]

theorem exists_leads (p : Text) : ∃ front, Leads front ∧ p = front ++ lastElement p ∧ slash ∉ lastElement p := by
  by_cases hs : slash ∈ p
  · obtain ⟨a, t, rfl, ht⟩ := Text.exists_last_cut hs
    rw [lastElement, Text.takeWhile_last_cut a ht]
    exact ⟨a ++ [slash], .inr ⟨a, rfl⟩, by simp, ht⟩
  · have hself := Leads.lastElement (.inl rfl) hs
    rw [List.nil_append] at hself
    rw [hself]
    exact ⟨[], .inl rfl, rfl, hs⟩

theorem isAbsolute_append (base : Text) {ending : Text} (h : slash ∉ ending) :
    isAbsolute (base ++ ending) = isAbsolute base := by
  cases base with
  | cons b base => rfl
  | nil =>
    cases ending with
    | nil => rfl
    | cons b ending =>
      have hb : b ≠ slash := fun he => h (he ▸ List.mem_cons_self)
      simp [isAbsolute, hb]

theorem lastElement_append (p : Text) {ending : Text} (h : slash ∉ ending) :
    lastElement (p ++ ending) = lastElement p ++ ending := by
  obtain ⟨front, hfront, hp, hlast⟩ := exists_leads p
  have hboth : slash ∉ lastElement p ++ ending := by simp [hlast, h]
  calc lastElement (p ++ ending) = lastElement (front ++ (lastElement p ++ ending)) := by rw [← List.append_assoc, ← hp]
    _ = lastElement p ++ ending := hfront.lastElement hboth

theorem lastElement_ahead (rooted : Bool) (done : List Text) (hw : slash ∉ w) : lastElement (ahead rooted done ++ w) = w :=
  (leads_ahead rooted done).lastElement hw

theorem directory_ahead (h : Normal rooted done) (hw : slash ∉ w) : directory (ahead rooted done ++ w) = written rooted done := by
  have hclean := clean_ahead h (w := []) (by decide)
  rw [(leads_ahead rooted done).directory hw, ← List.append_nil (ahead rooted done), hclean, enter_nil]

/-! ## File names -/

/-- A file name in two parts, cut before its last dot. -/
structure Parted (last name ext : Text) : Prop where
  eq : last = name ++ ext
  ext : ext = [] ∧ 0x2E ∉ name ∨ ∃ t, ext = 0x2E :: t ∧ 0x2E ∉ t

theorem exists_parted (last : Text) : ∃ name ext, Parted last name ext := by
  by_cases hdot : 0x2E ∈ last
  · obtain ⟨name, t, hlast, ht⟩ := Text.exists_last_cut hdot
    exact ⟨name, 0x2E :: t, hlast, .inr ⟨t, rfl, ht⟩⟩
  · exact ⟨last, [], (List.append_nil last).symm, .inl ⟨rfl, hdot⟩⟩

variable {p last name ext : Text}

theorem Parted.ext_eq (h : Parted last name ext) :
    (if last.contains 0x2E then 0x2E :: (last.reverse.takeWhile (· != 0x2E)).reverse else []) = ext := by
  rw [h.eq]
  rcases h.ext with ⟨rfl, hdot⟩ | ⟨t, rfl, ht⟩
  · rw [if_neg (by simpa using hdot)]
  · rw [if_pos (by simp), Text.takeWhile_last_cut name ht]

theorem Parted.unique {name' ext' : Text} (h : Parted last name ext) (h' : Parted last name' ext') :
    name = name' ∧ ext = ext' := by
  have hext : ext = ext' := h.ext_eq.symm.trans h'.ext_eq
  subst hext
  exact ⟨List.append_cancel_right (h.eq.symm.trans h'.eq), rfl⟩

theorem withoutEnding_append (name ext : Text) : withoutEnding ext (name ++ ext) = name := by
  simp [withoutEnding, Text.endsWith]

/-- A path without a slash at its end has the last element as its base. -/
theorem base_eq (h : lastElement p ≠ []) : base p = lastElement p := by
  obtain ⟨front, -, hp, hlast⟩ := exists_leads p
  have hne : p ≠ [] := by
    intro hnil
    rw [hnil] at h
    exact h rfl
  have htrim : p.reverse.dropWhile (· == slash) = p.reverse := by
    obtain ⟨init, b, hb⟩ := (List.eq_nil_or_concat (lastElement p)).resolve_left h
    have hbs : b ≠ slash := fun he => hlast (by simp [hb, he])
    rw [hp, hb, List.reverse_append, List.concat_eq_append, List.reverse_concat, List.cons_append,
      List.dropWhile_cons_of_neg (by simpa using hbs)]
  simp only [base, htrim, List.reverse_reverse, List.isEmpty_eq_false_iff.mpr hne]
  rfl

theorem Parted.stem_eq (h : Parted (Path.lastElement p) name ext) (hne : Path.lastElement p ≠ []) : stem p = name := by
  have hext : extension p = ext := h.ext_eq
  rw [stem, hext, base_eq hne, h.eq, withoutEnding_append]

/-! ## Names below a directory -/

theorem clean_clean (p : Text) : clean (clean p) = clean p := by
  rw [clean_eq_written p, clean_written (stack_normal p)]

variable {up : List Text} {dir ending : Text}

theorem join_eq_written (hdir : dir ≠ []) (hname : slash ∉ name) :
    join dir name = written (isAbsolute dir) (enter (isAbsolute dir) (stack dir) name) := by
  have hroot : isAbsolute (dir ++ slash :: name) = isAbsolute dir := by
    cases dir with
    | nil => exact absurd rfl hdir
    | cons b dir => rfl
  have hstack : stack (dir ++ slash :: name) = enter (isAbsolute dir) (stack dir) name := by
    rw [stack, hroot, elements_append_slash, elements_of_not_mem hname, List.foldl_append]
    rfl
  rw [join, List.isEmpty_eq_false_iff.mpr hdir, ← hstack, ← hroot]
  exact clean_eq_written _

/-- `p` is the path of the entry `name` of the directory `dir`. -/
structure IsEntry (dir name p : Text) : Prop where
  directory : Path.directory p = dir
  name : Path.lastElement p = name

/-- An ending behind the text of a stack belongs to its last element. -/
theorem isEntry_written_iff (h : Normal rooted done) (hup : Normal rooted up) (hending : slash ∉ ending) :
    IsEntry (written rooted done) (name ++ ending) (written rooted up ++ ending) ↔
      up = name :: done ∨ up = [] ∧ done = [] ∧ name = if rooted then [] else "." := by
  obtain ⟨rest, last, htext, hrest, hlast, -, hcase⟩ := written_eq_ahead hup
  have hboth : slash ∉ last ++ ending := by simp [hlast, hending]
  rw [htext, List.append_assoc]
  constructor
  · intro hentry
    have hdone : rest = done :=
      ((written_eq_iff hrest h).mp ((directory_ahead hrest hboth).symm.trans hentry.directory)).2
    have hname : last = name :=
      List.append_cancel_right ((lastElement_ahead rooted rest hboth).symm.trans hentry.name)
    subst hdone hname
    exact hcase
  · intro hshape
    have hcut : rest = done ∧ last = name := by
      rcases hcase with rfl | ⟨rfl, rfl, rfl⟩
      · rcases hshape with heq | ⟨heq, -⟩
        · exact ⟨(List.cons.inj heq).2, (List.cons.inj heq).1⟩
        · cases heq
      · rcases hshape with heq | ⟨-, rfl, rfl⟩
        · cases heq
        · exact ⟨rfl, rfl⟩
    obtain ⟨rfl, rfl⟩ := hcut
    exact ⟨directory_ahead hrest hboth, lastElement_ahead rooted rest hboth⟩

/-- The stems that keep their place when they are put below the clean directory `dir`. -/
def Keeps (dir name : Text) : Prop :=
  IsName name ∨ name = [] ∧ dir = "/" ∨ name = "." ∧ dir = "." ∨ name = ".." ∧ ∀ e ∈ elements dir, e = "." ∨ e = ".."

/-- A `..` stays on top of a stack where there is nothing else below it. -/
theorem enter_up_eq_cons_iff (h : Normal rooted done) :
    enter rooted done ".." = (".." : Text) :: done ↔ ∀ e ∈ elements (written rooted done), e = "." ∨ e = ".." := by
  cases h with
  | start =>
    cases rooted with
    | true => exact ⟨fun heq => absurd heq (by decide), fun hall => absurd (hall [] (by decide)) (by decide)⟩
    | false =>
      refine ⟨fun _ e he => .inl ?_, fun _ => rfl⟩
      exact List.mem_singleton.mp he
  | @up done free ups below =>
    subst free
    refine ⟨fun _ e he => .inr ?_, fun _ => enter_up_ups (List.forall_mem_cons.mpr ⟨rfl, ups⟩)⟩
    rw [written_cons, elements_ahead below (by decide)] at he
    simp only [Bool.false_eq_true, if_false, List.nil_append, List.mem_append, List.mem_reverse, List.mem_singleton] at he
    rcases he with he | he
    · exact ups e he
    · exact he
  | @name n done isName noSlash below =>
    rw [enter_up_name isName.ne_up]
    constructor
    · intro heq
      have hlength := congrArg List.length heq
      rw [List.length_cons, List.length_cons] at hlength
      omega
    · intro hall
      rw [written_cons, elements_ahead below noSlash] at hall
      rcases hall n (by simp) with heq | heq
      · exact absurd heq isName.ne_here
      · exact absurd heq isName.ne_up

theorem keeps_nil_iff : Keeps dir [] ↔ dir = "/" := by
  constructor
  · intro hkeeps
    rcases hkeeps with hname | ⟨-, hdir⟩ | ⟨hnil, -⟩ | ⟨hnil, -⟩
    · exact absurd rfl hname.ne_nil
    · exact hdir
    · exact absurd hnil (by decide)
    · exact absurd hnil (by decide)
  · exact fun hdir => .inr (.inl ⟨rfl, hdir⟩)

theorem keeps_here_iff : Keeps dir "." ↔ dir = "." := by
  constructor
  · intro hkeeps
    rcases hkeeps with hname | ⟨hhere, -⟩ | ⟨-, hdir⟩ | ⟨hhere, -⟩
    · exact absurd rfl hname.ne_here
    · exact absurd hhere (by decide)
    · exact hdir
    · exact absurd hhere (by decide)
  · exact fun hdir => .inr (.inr (.inl ⟨rfl, hdir⟩))

theorem keeps_up_iff : Keeps dir ".." ↔ ∀ e ∈ elements dir, e = "." ∨ e = ".." := by
  constructor
  · intro hkeeps
    rcases hkeeps with hname | ⟨hup, -⟩ | ⟨hup, -⟩ | ⟨-, hdir⟩
    · exact absurd rfl hname.ne_up
    · exact absurd hup (by decide)
    · exact absurd hup (by decide)
    · exact hdir
  · exact fun hdir => .inr (.inr (.inr ⟨rfl, hdir⟩))

/-- A stem is kept if it comes to lie on the stack, or if nothing is on the stack and it is how that is written. -/
theorem keeps_iff (h : Normal rooted done) :
    (enter rooted done name = name :: done ∨
      enter rooted done name = [] ∧ done = [] ∧ name = if rooted then [] else ".") ↔ Keeps (written rooted done) name := by
  rcases isName_or name with hname | rfl | rfl | rfl
  · exact ⟨fun _ => .inl hname, fun _ => .inl (enter_name hname)⟩
  · have hroot : written rooted done = "/" ↔ rooted = true ∧ done = [] :=
      written_eq_iff h (.start : Normal true [])
    rw [keeps_nil_iff, hroot, enter_nil]
    constructor
    · intro hcase
      rcases hcase with heq | ⟨-, hdone, hname⟩
      · exact absurd heq.symm (List.cons_ne_self _ _)
      · cases rooted with
        | true => exact ⟨rfl, hdone⟩
        | false => exact absurd hname (by decide)
    · intro ⟨hroot, hdone⟩
      subst hroot hdone
      exact .inr ⟨rfl, rfl, rfl⟩
  · have hhere : written rooted done = "." ↔ rooted = false ∧ done = [] :=
      written_eq_iff h (.start : Normal false [])
    rw [keeps_here_iff, hhere, enter_here]
    constructor
    · intro hcase
      rcases hcase with heq | ⟨-, hdone, hname⟩
      · exact absurd heq.symm (List.cons_ne_self _ _)
      · cases rooted with
        | true => exact absurd hname (by decide)
        | false => exact ⟨rfl, hdone⟩
    · intro ⟨hroot, hdone⟩
      subst hroot hdone
      exact .inr ⟨rfl, rfl, rfl⟩
  · rw [keeps_up_iff, ← enter_up_eq_cons_iff h]
    constructor
    · intro hcase
      rcases hcase with heq | ⟨-, -, hname⟩
      · exact heq
      · cases rooted with
        | true => exact absurd hname (by decide)
        | false => exact absurd hname (by decide)
    · exact .inl

/-- What is made by putting a name below a directory and an ending behind it. -/
theorem isEntry_join_iff (hdir : dir ≠ []) (hname : slash ∉ name) (hending : slash ∉ ending) :
    IsEntry (clean dir) (name ++ ending) (join dir name ++ ending) ↔ Keeps (clean dir) name := by
  have hstack := stack_normal dir
  rw [join_eq_written hdir hname, clean_eq_written dir,
    isEntry_written_iff hstack (hstack.enter hname) hending, keeps_iff hstack]

end Path

end Rv32Tools
