import PropertyCascade.Proofs.Resolution.Provenance
import PropertyCascade.Proofs.Text.Utf8Order
import PropertyCascade.Report

/-!
# Plain output read back

Plain output without colours says what the reports hold, as far as it is shown at all. Its lines in
brackets are the headers and no others, because the tables are such as a resolution gives: no entry
of theirs makes a line with brackets at both ends, and none has a line end in it, or `=` in its key.
-/

namespace PropertyCascade

namespace Report

/-- A line with brackets at both ends. -/
def isBracketed (line : Text) : Bool :=
  line.head? == some '[' && line.getLast? == some ']'

/-- The lines in brackets, each with the lines after it up to the next one. -/
def blocks : List Text → List (Text × List Text)
  | [] => []
  | line :: rest =>
      if isBracketed line then
        (line, rest.takeWhile fun other => !isBracketed other) :: blocks rest
      else blocks rest

/-! ## Lines -/

theorem isBracketed_header (path : Text) : isBracketed ('[' :: path ++ [']']) = true := by
  rw [isBracketed, List.getLast?_concat]
  rfl

theorem isBracketed_of_pattern? {line : Text} (noPattern : Statement.pattern? line = none) :
    isBracketed line = false := by
  apply Bool.eq_false_iff.mpr
  intro bracketed
  simp only [isBracketed, Bool.and_eq_true, beq_iff_eq] at bracketed
  rcases bracketed with ⟨opening, closing⟩
  cases line with
  | nil => simp at opening
  | cons first rest =>
      rcases Option.some.inj opening with rfl
      cases rest with
      | nil => simp at closing
      | cons second others =>
          have closed : (second :: others).getLast? = some ']' := by simpa using closing
          simp [Statement.pattern?, closed] at noPattern

theorem splitOn_endedLines {lines : List Text} (oneLine : ∀ line ∈ lines, '\n' ∉ line) :
    (endedLines lines).splitOn '\n' = lines ++ [[]] := by
  induction lines with
  | nil => rfl
  | cons line rest ih =>
      rcases List.forall_mem_cons.mp oneLine with ⟨lineOneLine, restOneLine⟩
      have ended : endedLines (line :: rest) = line ++ '\n' :: endedLines rest := by
        simp [endedLines]
      rw [ended, List.splitOn_append_cons_self, List.splitOn_eq_singleton lineOneLine,
        ih restOneLine, List.singleton_append, List.cons_append]

/-! ## Blocks -/

theorem blocks_append {front : List Text} (plain : ∀ line ∈ front, isBracketed line = false)
    (rest : List Text) : blocks (front ++ rest) = blocks rest := by
  induction front with
  | nil => rfl
  | cons line others ih =>
      rcases List.forall_mem_cons.mp plain with ⟨linePlain, othersPlain⟩
      rw [List.cons_append, blocks, if_neg (by simp [linePlain]), ih othersPlain]

/-- Lines that are put together from blocks fall into these blocks. -/
theorem blocks_flatMap {sheets : List (Text × List Text)}
    (headed : ∀ sheet ∈ sheets, isBracketed sheet.1 = true)
    (plain : ∀ sheet ∈ sheets, ∀ line ∈ sheet.2, isBracketed line = false) :
    blocks (sheets.flatMap fun sheet => sheet.1 :: sheet.2) = sheets := by
  induction sheets with
  | nil => rfl
  | cons sheet rest ih =>
      rcases List.forall_mem_cons.mp headed with ⟨sheetHeaded, restHeaded⟩
      rcases List.forall_mem_cons.mp plain with ⟨sheetPlain, restPlain⟩
      have noneTaken : (rest.flatMap fun other => other.1 :: other.2).takeWhile
          (fun line => !isBracketed line) = [] := by
        cases rest with
        | nil => rfl
        | cons next others =>
            rw [List.flatMap_cons, List.cons_append, List.takeWhile_cons_of_neg]
            simp [(List.forall_mem_cons.mp restHeaded).1]
      have taken : ∀ line ∈ sheet.2, (!isBracketed line) = true := by
        intro line member
        simp [sheetPlain line member]
      rw [List.flatMap_cons, List.cons_append, blocks, if_pos sheetHeaded,
        List.takeWhile_append_of_pos taken, noneTaken, List.append_nil,
        blocks_append sheetPlain, ih restHeaded restPlain]

theorem filter_isBracketed {sheets : List (Text × List Text)}
    (headed : ∀ sheet ∈ sheets, isBracketed sheet.1 = true)
    (plain : ∀ sheet ∈ sheets, ∀ line ∈ sheet.2, isBracketed line = false) :
    (sheets.flatMap fun sheet => sheet.1 :: sheet.2).filter isBracketed =
      sheets.map Prod.fst := by
  rw [List.filter_flatMap, ← List.flatMap_singleton' (sheets.map Prod.fst), List.flatMap_map]
  apply List.flatMap_congr
  intro sheet member
  have nothing : sheet.2.filter isBracketed = [] :=
    List.filter_eq_nil_iff.mpr fun line under => by simp [plain sheet member line under]
  rw [List.filter_cons_of_pos (headed sheet member), nothing]

/-! ## Output -/

/-- What plain output shows of a report: its path, and its entries with the texts of the values. -/
def shown (report : Report) : Text × List (Text × Text) :=
  (report.path.display, report.properties.entries.map fun entry => (entry.1, entry.2.display))

/-- Several reports whose paths are shown on one line each and whose tables have been resolved. -/
structure AreListed (reports : List Report) : Prop where
  several : 1 < reports.length
  oneLine : ∀ report ∈ reports, '\n' ∉ report.path.display
  resolved : ∀ report ∈ reports, report.properties.IsResolved

/-- The line of an entry, without colours. -/
def entryLine (entry : Text × Value) : Text :=
  entry.1 ++ '=' :: entry.2.display

/-- The header of a report and the lines of its entries, without colours. -/
def sheet (report : Report) : Text × List Text :=
  ('[' :: report.path.display ++ [']'], report.properties.entries.map entryLine)

/-- The lines of several reports, without colours. -/
def sheetLines (reports : List Report) : List Text :=
  (reports.map sheet).flatMap fun block => block.1 :: block.2

section Output

variable {palette : Palette} {reports : List Report}

theorem plainLines_eq_sheet (colourless : palette.enabled = false) (report : Report) :
    plainLines palette true report = (sheet report).1 :: (sheet report).2 := by
  have unpainted (colour content : Text) : palette.paint colour content = content := by
    rw [Palette.paint, if_neg (by simp [colourless])]
  have lines : plainLine palette = entryLine := by
    funext entry
    rw [plainLine, Palette.key, unpainted, entryLine]
  rw [plainLines, if_pos rfl, Palette.header, unpainted, lines]
  rfl

theorem renderPlain_eq (colourless : palette.enabled = false) (several : 1 < reports.length) :
    renderPlain palette reports = endedLines (sheetLines reports) := by
  rw [renderPlain, sheetLines, decide_eq_true several, List.flatMap_map]
  congr 2
  funext report
  exact plainLines_eq_sheet colourless report

theorem AreListed.fitsLine (listed : AreListed reports) {report : Report}
    (member : report ∈ reports) {entry : Text × Value} (held : entry ∈ report.properties.entries) :
    Statement.FitsLine entry := by
  rcases (listed.resolved report member).exists_line held with ⟨line, oneLine, said⟩
  exact Statement.fitsLine_of_ofLine? oneLine said

theorem AreListed.oneLine_of_mem (listed : AreListed reports) :
    ∀ line ∈ sheetLines reports, '\n' ∉ line := by
  intro line member
  rcases List.mem_flatMap.mp member with ⟨block, inSheets, inBlock⟩
  rcases List.mem_map.mp inSheets with ⟨report, reported, rfl⟩
  rcases List.mem_cons.mp inBlock with rfl | under
  · have notInPath := listed.oneLine report reported
    simpa [sheet] using notInPath
  · rcases List.mem_map.mp under with ⟨entry, held, rfl⟩
    have fits := listed.fitsLine reported held
    have notInKey := fits.key_oneLine
    have notInDisplay := fits.display_oneLine
    simp [entryLine, notInKey, notInDisplay]

theorem AreListed.splitOn_render (colourless : palette.enabled = false)
    (listed : AreListed reports) :
    (render .plain palette reports).splitOn '\n' = sheetLines reports ++ [[]] := by
  rw [render, renderPlain_eq colourless listed.several]
  exact splitOn_endedLines listed.oneLine_of_mem

theorem isBracketed_of_mem_sheets :
    ∀ block ∈ reports.map sheet, isBracketed block.1 = true := by
  intro block member
  rcases List.mem_map.mp member with ⟨report, -, rfl⟩
  exact isBracketed_header report.path.display

theorem AreListed.not_isBracketed_of_mem (listed : AreListed reports) :
    ∀ block ∈ reports.map sheet, ∀ line ∈ block.2, isBracketed line = false := by
  intro block member line under
  rcases List.mem_map.mp member with ⟨report, reported, rfl⟩
  rcases List.mem_map.mp under with ⟨entry, held, rfl⟩
  exact isBracketed_of_pattern? (listed.fitsLine reported held).not_header

theorem AreListed.blocks_sheetLines (listed : AreListed reports) :
    blocks (sheetLines reports) = reports.map sheet :=
  blocks_flatMap isBracketed_of_mem_sheets listed.not_isBracketed_of_mem

/-- A path in brackets, and entries that are cut out of lines. -/
def bracketed (content : Text × List (Text × Text)) : Text × List (Option (Text × Text)) :=
  ('[' :: content.1 ++ [']'], content.2.map some)

theorem bracketed_injective : Function.Injective bracketed := by
  intro content other same
  rcases Prod.ext_iff.mp same with ⟨samePath, sameEntries⟩
  refine Prod.ext ?_ ((List.map_injective_iff.mpr (Option.some_injective _)) sameEntries)
  exact (List.cons.inj (List.append_cancel_right samePath)).2

/-- A block with the lines under its header cut at their first `=`. -/
def cutBlock (block : Text × List Text) : Text × List (Option (Text × Text)) :=
  (block.1, block.2.map (Text.cutFirst '='))

theorem AreListed.cutBlock_sheet (listed : AreListed reports) {report : Report}
    (member : report ∈ reports) :
    cutBlock (sheet report) = bracketed (shown report) := by
  refine Prod.ext rfl ?_
  simp only [cutBlock, sheet, bracketed, shown, List.map_map]
  apply List.map_congr_left
  intro entry held
  exact Text.cutFirst_append (listed.fitsLine member held).key_uncut entry.2.display

/-- The blocks of the output give what is shown of the reports. -/
theorem AreListed.map_cutBlock (listed : AreListed reports) :
    (blocks (sheetLines reports)).map cutBlock = (reports.map shown).map bracketed := by
  rw [listed.blocks_sheetLines, List.map_map, List.map_map]
  exact List.map_congr_left fun report member => listed.cutBlock_sheet member

end Output

theorem increasing_keys (table : Properties) :
    (table.keys.map Text.Utf8.encode).Pairwise (· < ·) := by
  rw [OrderedMap.keys, List.pairwise_map, List.pairwise_map]
  exact table.increasing.imp Text.Utf8.encode_lt_encode

/-- Plain output of several reports can be read in one way only. -/
theorem render_plain_unambiguous {palette : Palette} (colourless : palette.enabled = false)
    {reports : List Report} (listed : AreListed reports) :
    (∃ lines, (render .plain palette reports).splitOn '\n' = lines ++ [[]] ∧
      lines.filter isBracketed = reports.map (fun report => '[' :: report.path.display ++ [']']) ∧
      lines = ((blocks lines).flatMap fun block => block.1 :: block.2) ∧
      (blocks lines).map cutBlock = (reports.map shown).map bracketed) ∧
      (∀ report ∈ reports, (report.properties.keys.map Text.Utf8.encode).Pairwise (· < ·)) ∧
      ∀ others, AreListed others → render .plain palette others = render .plain palette reports →
        others.map shown = reports.map shown := by
  have split := listed.splitOn_render colourless
  refine ⟨⟨sheetLines reports, split, ?_, ?_, listed.map_cutBlock⟩,
    fun report _ => increasing_keys report.properties, fun others othersListed same => ?_⟩
  · rw [sheetLines, filter_isBracketed isBracketed_of_mem_sheets listed.not_isBracketed_of_mem,
      List.map_map]
    rfl
  · rw [listed.blocks_sheetLines, sheetLines]
  · have otherSplit := othersListed.splitOn_render colourless
    rw [same, split] at otherSplit
    have sameLines : sheetLines reports = sheetLines others :=
      List.append_cancel_right otherSplit
    have sameReading : (others.map shown).map bracketed = (reports.map shown).map bracketed := by
      rw [← othersListed.map_cutBlock, ← sameLines, listed.map_cutBlock]
    exact List.map_injective_iff.mpr bracketed_injective sameReading

/-- A file with brackets and signs at the ends of keys and values. -/
def bracketStore : FileStore :=
  FileStore.empty.insert (.ofText "/.e".toList) "[*]\n[a==b\nc=d]\n[e] = [=]f\n".toList

/-- What is in effect at the path `/f` in that store. -/
def bracketTable : Properties :=
  (Resolution.ofNames bracketStore.source ".e".toList
    (PathName.ofText "/f".toList).names).properties

/-- Two reports, of which the first is on a path that is no text. -/
def bracketReports (byte : UInt8) : List Report :=
  [⟨⟨[0x2F, byte]⟩, bracketTable⟩, ⟨.ofText "/a]".toList, OrderedMap.empty⟩]

theorem areListed_bracketReports {byte : UInt8}
    (oneLine : '\n' ∉ (⟨[0x2F, byte]⟩ : PathName).display) : AreListed (bracketReports byte) where
  several := Nat.one_lt_two
  oneLine := List.forall_mem_cons.mpr ⟨oneLine, List.forall_mem_singleton.mpr (by decide)⟩
  resolved := by
    refine List.forall_mem_cons.mpr ⟨?_, List.forall_mem_singleton.mpr ?_⟩
    · exact ⟨bracketStore.source, ".e".toList, .ofText "/f".toList, rfl⟩
    · exact ⟨FileStore.empty.source, ".e".toList, .ofText "/f".toList, rfl⟩

/-- Different paths may be shown alike, and then nothing else tells the outputs apart. -/
theorem render_plain_unambiguous_bracketReports :
    let palette : Palette := ⟨false⟩
    palette.enabled = false ∧ AreListed (bracketReports 0xFE) ∧ AreListed (bracketReports 0xFF) ∧
      render .plain palette (bracketReports 0xFF) = render .plain palette (bracketReports 0xFE) ∧
      (bracketReports 0xFF).map shown = (bracketReports 0xFE).map shown ∧
      (∃ lines, (render .plain palette (bracketReports 0xFE)).splitOn '\n' = lines ++ [[]] ∧
        lines.filter isBracketed = ["[/\uFFFD]".toList, "[/a]]".toList]) ∧
      shown ⟨.ofText "/f".toList, bracketTable⟩ =
        ("/f".toList, [("[a".toList, "=b".toList), ("[e]".toList, "[=]f".toList),
          ("c".toList, "d]".toList)]) := by
  intro palette
  have listed : AreListed (bracketReports 0xFE) := areListed_bracketReports (by decide)
  have otherListed : AreListed (bracketReports 0xFF) := areListed_bracketReports (by decide)
  have same : render .plain palette (bracketReports 0xFF) =
      render .plain palette (bracketReports 0xFE) := rfl
  have colourless : palette.enabled = false := rfl
  rcases render_plain_unambiguous colourless listed with
    ⟨⟨lines, split, headers, -, -⟩, -, determined⟩
  refine ⟨colourless, listed, otherListed, same, determined _ otherListed same,
    ⟨lines, split, ?_⟩, ?_⟩
  · rw [headers]
    decide
  · decide +kernel

end Report

end PropertyCascade
