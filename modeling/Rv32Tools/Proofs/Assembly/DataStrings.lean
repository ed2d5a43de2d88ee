import Rv32Tools.Proofs.Assembly.DataLabels
import Rv32Tools.Proofs.Assembly.Emitted
import Rv32Tools.Proofs.Source.Strings

/-
  Rv32Tools.Proofs.Assembly.DataStrings — every string comes through the source format.

  A line `label: .string ".."` is read with its string untouched (`Source.ofRaw_string`). The segment defines the label at
  its cursor and stores there the bytes of the string and a zero byte (`line_string`). Lines behind it neither move the
  label nor change these bytes, and the text segment adds labels only (`Stages.find?_of_data`). So in the file as it is
  written, `string_survives` finds the bytes from the address of the label on.
-/

namespace Rv32Tools.Assembly

open Source (Line StringRow stringBody quoted EndsLine)

/-- A region around one of its lines. -/
theorem Region.lines_around {r : Region} {before after : List Line} {l : Line} (hstart : r.start ≤ before.length)
    (hstop : before.length < r.stop) :
    r.lines (before ++ l :: after) = before.drop r.start ++ l :: after.take (r.stop - before.length - 1) := by
  obtain ⟨k, hk⟩ := Nat.exists_eq_add_of_lt hstop
  have htake : (before ++ l :: after).take r.stop = before ++ l :: after.take k := by
    rw [hk, Nat.add_assoc, List.take_length_add_append, List.take_succ_cons]
  rw [lines, htake, List.drop_append_of_le_length hstart, hk]
  congr 3
  omega

namespace DataSegment

theorem directive?_stringBody (bytes : List UInt8) :
    Source.directive? (stringBody bytes) = some (Text.ofString ".string") := by
  have hname : ∀ b ∈ Text.ofString ".string", (!Text.isGap b) = true := by decide +kernel
  have htake := (Source.takeWhile_append_cons hname 0x20 (by decide) (quoted bytes)).1
  have hlower : Text.toLower (Text.ofString ".string") = Text.ofString ".string" := by decide +kernel
  have hdot : ((stringBody bytes).head? == some 0x2E) = true := rfl
  rw [Source.directive?, if_pos hdot, stringBody, htake, hlower]

theorem directive_quoted {d : DataSegment} {bytes : List UInt8} (hfits : d.fits (bytes.length + 1) = true) :
    d.directive (Text.ofString ".string") (quoted bytes) = (d.append (bytes ++ [0]), none) := by
  have hname : d.directive (Text.ofString ".string") (quoted bytes) = d.string (quoted bytes) := rfl
  rw [hname]
  simp [string, Source.enclosedBy_quoted, Source.inner_quoted, Source.unquote_escaped, hfits]

/-- What a line with a string does to the segment. -/
theorem line_string {d : DataSegment} {l : Line} {label : Text} {bytes : List UInt8}
    (hst : l.statement = ⟨label, stringBody bytes⟩) (hname : isLabelName label = true)
    (hnew : d.symbols.find? label = none) (hfits : d.fits (bytes.length + 1) = true) :
    d.line l =
      ({ d with
          bytes := d.bytes ++ (bytes ++ [0])
          symbols := ⟨d.symbols.entries ++ [⟨label, d.cursor, .data, l.number⟩]⟩
          pending := [] }, none) := by
  have hlabel : label.isEmpty = false := by
    cases label with
    | nil => cases hname
    | cons b r => rfl
  have hlabelled : d.labelled l = .ok { d with
      symbols := ⟨d.symbols.entries ++ [⟨label, d.cursor, .data, l.number⟩]⟩
      pending := d.pending ++ [label] } := by
    have hdefine := SymbolTable.define_eq_ok_iff (s := ⟨label, d.cursor, .data, l.number⟩).mpr ⟨hname, hnew, rfl⟩
    simp [labelled, hst, hlabel, hdefine]
  have hdirective : l.directive? = some (Text.ofString ".string") := by
    rw [Line.directive?, hst]
    exact directive?_stringBody bytes
  have hargument : argumentOf l (Text.ofString ".string") = quoted bytes := by
    rw [argumentOf, hst]
    show Text.trim ((Text.ofString ".string" ++ 0x20 :: quoted bytes).drop (Text.ofString ".string").length) = _
    rw [List.drop_left, Text.trim_space (by decide) (by decide) (Source.quoted_head? _) (Source.quoted_getLast? _)]
  have hlen : (Text.ofString ".string").length ≤ l.statement.body.length := by
    rw [hst]
    show _ ≤ (Text.ofString ".string" ++ 0x20 :: quoted bytes).length
    rw [List.length_append]
    exact Nat.le_add_right _ _
  exact line_directive hlabelled hdirective hlen ((congrArg _ hargument).trans (directive_quoted hfits))

end DataSegment

/-- A label of the data segment is in the table at the end, as the segment left it. -/
theorem Stages.find?_of_data {source : Text} {s : Stages} {d : DataSegment} (h : ofSource source = .ok s)
    (hd : s.data = some d) {name : Text} {symbol : Symbol} (hs : d.symbols.find? name = some symbol) :
    s.layout.symbols.find? name = some symbol := by
  obtain ⟨_, _, hlayout⟩ := ofSource_ok h
  have hlabels := (Layout.ofLines_ok hlayout).labels
  rw [hd] at hlabels
  have key := SymbolTable.find?_append_of_some hs
    (Layout.along Layout.labelsOn s.sections.text.base.toNat (s.sections.text.lines (Line.ofSource source)))
  unfold SymbolTable.find? at key ⊢
  rw [hlabels]
  exact key

/-- A line `label: .string ".."` of the data section is taken, if the name is new and the bytes fit. It stores the bytes
that were written, whatever they are, and a zero byte, and the label names the first of them. A run that comes to its end
has the label and the bytes in place. -/
theorem string_survives {front raw back label : Text} {bytes : List UInt8} {sections : Sections} {region : Region}
    {d : DataSegment} (hfront : front = [] ∨ front.getLast? = some 0x0A) (hraw : StringRow label bytes raw)
    (hend : EndsLine raw back)
    (hsections : (Sections.ofLines (Line.ofSource (front ++ (raw ++ back)))).2 = .ok sections)
    (hregion : sections.data = some region) (hstart : region.start ≤ (Line.ofSource front).length)
    (hstop : (Line.ofSource front).length < region.stop)
    (hbefore : buildData (.start region.base .empty) ((Line.ofSource front).drop region.start) = .ok d)
    (hname : isLabelName label = true) (hnew : d.symbols.find? label = none)
    (hfits : region.base.toNat + d.bytes.length + bytes.length + 1 ≤ addressSpace) :
    ∃ l d' address, (Line.ofSource (front ++ (raw ++ back)))[(Line.ofSource front).length]? = some l ∧
      l.fault = none ∧ d.line l = (d', none) ∧ d'.bytes = d.bytes ++ (bytes ++ [0]) ∧
      d'.symbols.find? label = some ⟨label, address, .data, l.number⟩ ∧
      address.toNat = region.base.toNat + d.bytes.length ∧
      ∀ o r, (assemble o (front ++ (raw ++ back))).outcome = .ok r →
        r.symbols.find? label = some ⟨label, address, .data, l.number⟩ ∧
        ∃ stream,
          buildData (.start region.base .empty) (region.lines (Line.ofSource (front ++ (raw ++ back)))) = .ok stream ∧
          bytes ++ [0] <+: stream.bytes.drop (address.toNat - region.base.toNat) ∧
          (r.errors = [] → r.data = some (.ofData region.base stream.payload)) := by
  obtain ⟨hne, hword⟩ := SymbolTable.isLabelName_word hname
  obtain ⟨after, hlines⟩ := Source.rawLines_cut hfront hraw.ne_nil (hraw.oneLine hword) hend
  have hsource := Line.ofSource_of_rawLines hlines
  rw [← Line.ofSource] at hsource
  obtain ⟨hst, hfault⟩ := Source.ofRaw_string hne hword hraw ((Line.rawLines front).length + 1)
  generalize Line.ofRaw ((Line.rawLines front).length + 1) raw = l at hsource hst hfault
  -- the line itself
  have hbase : d.base = region.base := (DataSegment.feed_bytes (feed_of_buildData hbefore)).1
  have htop : d.top < addressSpace := by
    rw [DataSegment.top, hbase]
    omega
  have hcursor : d.cursor.toNat = region.base.toNat + d.bytes.length := by
    rw [DataSegment.cursor_toNat_of_lt htop, DataSegment.top, hbase]
  have hroom : d.fits (bytes.length + 1) = true := by
    rw [DataSegment.fits, hcursor]
    exact decide_eq_true (by omega)
  have hstep := DataSegment.line_string hst hname hnew hroom
  have hfind := SymbolTable.find?_concat_self (s := ⟨label, d.cursor, .data, l.number⟩) hnew
  refine ⟨l, _, d.cursor, ?_, hfault, hstep, rfl, hfind, hcursor, fun o r hr => ?_⟩
  · rw [hsource, List.getElem?_append_right (Nat.le_refl _), Nat.sub_self]
    rfl
  · -- the lines behind it and the text segment
    obtain ⟨s, hstages, rfl⟩ := Stages.ofSource_of_outcome hr
    obtain ⟨hs, hdata, _⟩ := Stages.ofSource_ok hstages
    have hsec : s.sections = sections := Except.ok.inj (hs.symm.trans hsections)
    obtain ⟨stream, hstream, hbuild⟩ := buildData_of_dataStage hdata (hsec ▸ hregion)
    have hfeed := feed_of_buildData hbuild
    rw [hsource, Region.lines_around hstart hstop] at hfeed
    obtain ⟨e, he, hrest⟩ := DataSegment.feed_append hfeed
    cases he.symm.trans (feed_of_buildData hbefore)
    simp only [DataSegment.feed, hstep] at hrest
    have hkept := DataSegment.feed_keeps hrest hfind List.not_mem_nil
    refine ⟨Stages.find?_of_data hstages hstream hkept, stream, hbuild, ?_, fun herrors => ?_⟩
    · obtain ⟨rest, hbytes⟩ := (DataSegment.feed_bytes hrest).2
      rw [← hbytes, hcursor, Nat.add_sub_cancel_left, List.append_assoc, List.drop_left]
      exact List.prefix_append _ _
    · rw [Stages.result_data _ _ _ herrors, hsec, hstream]
      simp only [dataImage, hregion]

/-- Bytes with every mark that lines are read by, ends of lines and no text at the end. -/
def oddBytes : List UInt8 :=
  [0x23, 0x2C, 0x20, 0x20, 0x3A, 0x22, 0x27, 0x5C, 0x0A, 0x0D, 0x09, 0x28, 0x00, 0xC3, 0xFF]

def oddFront : Text := ".section .data\n.org 0x100\nx: .byte 7\n"

def oddTail : Text := Text.ofString "\t " ++ (quoted oddBytes ++ (Text.ofString " " ++ 0x23 :: Text.ofString " \"it's"))

def oddRow : Text :=
  Text.ofString " " ++ ((Text.ofString "s" ++ [0x3A]) ++ (Text.ofString " " ++ (Text.ofString ".string" ++ oddTail)))

def oddBack : Text := 0x0D :: 0x0A :: Text.ofString ".hword 5\n.section .text\n.org 0x0\nla a0, s\n"

theorem oddRow_stringRow : StringRow "s" oddBytes oddRow :=
  ⟨_, _, by decide +kernel,
    .cons (by decide +kernel) (by decide +kernel)
      (.cons (by decide +kernel) (by decide +kernel) (.last (by decide +kernel) (Or.inr ⟨_, rfl, by decide +kernel⟩))),
    rfl⟩

def oddSource : Text := oddFront ++ (oddRow ++ oddBack)

theorem odd_run :
    (Sections.ofLines (Line.ofSource oddSource)).2 = .ok { data := some ⟨0x100, 2, 5⟩, text := ⟨0, 7, 8⟩ } ∧
      (Line.ofSource oddFront).length = 3 ∧
      (buildData (.start 0x100 .empty) ((Line.ofSource oddFront).drop 2)).toOption.map
        (fun d => (d.bytes, d.symbols.find? "s")) = some ([7], none) ∧
      (assemble {} oddSource).outcome.toOption.map (·.errors) = some [] := by
  decide +kernel

/-- The bytes are in the data of a run, from the address of their label on. -/
theorem string_survives_odd :
    ∃ r stream, (assemble {} oddSource).outcome = .ok r ∧
      r.symbols.find? "s" = some ⟨"s", 0x101, .data, 4⟩ ∧
      buildData (.start 0x100 .empty) (Region.lines ⟨0x100, 2, 5⟩ (Line.ofSource oddSource)) = .ok stream ∧
      oddBytes ++ [0] <+: stream.bytes.drop 1 ∧ r.data = some (.ofData 0x100 stream.payload) := by
  obtain ⟨hsections, hlines, hbefore, houtcome⟩ := odd_run
  cases hd : buildData (.start 0x100 .empty) ((Line.ofSource oddFront).drop 2) with
  | error halt =>
    rw [hd] at hbefore
    cases hbefore
  | ok d =>
    cases hr : (assemble {} oddSource).outcome with
    | error halt =>
      rw [hr] at houtcome
      cases houtcome
    | ok r =>
      rw [hd] at hbefore
      rw [hr] at houtcome
      simp only [Except.toOption, Option.map_some, Option.some.injEq, Prod.mk.injEq] at hbefore houtcome
      obtain ⟨l, d', address, hl, _, _, _, _, haddress, run⟩ :=
        @string_survives oddFront oddRow oddBack _ _ _ _ _ (Or.inr (by decide +kernel)) oddRow_stringRow
          (Or.inr (Or.inl ⟨_, rfl⟩)) hsections rfl (by decide +kernel) (by decide +kernel) hd
          (by decide +kernel) hbefore.2 (by rw [hbefore.1]; decide +kernel)
      have hnumber := Line.numbered_getElem? hl
      rw [hlines] at hnumber
      rw [hbefore.1] at haddress
      obtain ⟨hfind, stream, hstream, hbytes, hdata⟩ := run {} r hr
      rw [haddress] at hbytes
      rw [hnumber, show address = 0x101 from BitVec.eq_of_toNat_eq haddress] at hfind
      exact ⟨r, stream, rfl, hfind, hstream, hbytes, hdata houtcome⟩

end Rv32Tools.Assembly
