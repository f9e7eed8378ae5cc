import LinkerNames.Proofs.CommandLine.Interruption
import LinkerNames.Proofs.Symbol.Display
/-!
# Lines that stand for symbols

A symbol is known from its one-line form, and this has no line break in it. So in the tree format
each line that a command prints stands for one symbol, and so does each line of the log that begins
with the mark of a tree: the lines are those of the signatures in turn
(`displayed_identifies`).
-/

namespace LinkerNames

open Number

/-! ## Symbols of signatures -/

/-- The symbols of the texts are those of the signatures, one each. -/
theorem map_ok_acceptedSymbols (texts : List String) :
    (acceptedSymbols texts).map .ok = (texts.takeWhile accepts).map Symbol.ofText := by
  induction texts with
  | nil => rfl
  | cons text texts ih =>
    by_cases h : accepts text = true
    · obtain ⟨s, hs⟩ := accepts_iff.1 h
      rw [acceptedSymbols_cons hs, List.takeWhile_cons_of_pos h, List.map_cons, List.map_cons, ih,
        hs]
    · rw [acceptedSymbols_cons_of_not_accepts h, List.takeWhile_cons_of_neg h]
      rfl

/-- The symbols of signatures that have lines. In the tree format the lines are their one-line
forms. -/
theorem exists_symbols_of_shows {format : Format} {texts shown lines : List String}
    (hshown : shown <+: texts.takeWhile accepts)
    (hlines : List.Forall₂ format.Shows shown lines) :
    ∃ symbols, symbols <+: acceptedSymbols texts ∧
      (shown = texts.takeWhile accepts → symbols = acceptedSymbols texts) ∧
      (format = .tree → lines = symbols.map Symbol.displayed) := by
  refine ⟨shown.filterMap fun text => (Symbol.ofText text).toOption, hshown.filterMap _, ?_, ?_⟩
  · rintro rfl
    rfl
  · rintro rfl
    clear hshown
    induction hlines with
    | nil => rfl
    | cons hline _ ih =>
      obtain ⟨s, hs, rfl⟩ := hline
      rw [List.filterMap_cons_some (by rw [hs]; rfl), List.map_cons, ih]

/-! ## Lines of the log -/

/-- What a line of the log begins with that says a symbol. -/
def treeMark : List Char :=
  "[tree] ".toList

/-- The symbol that a remark says. -/
def Remark.symbol? : Remark → Option Symbol
  | .took _ => none
  | .tree s => some s

/-- Every signature has its symbol said, if any detail was asked for. -/
theorem Settings.symbols_allRemarks (settings : Settings) (texts : List String) :
    (settings.allRemarks texts).filterMap Remark.symbol? =
      if 1 ≤ settings.verbosity then acceptedSymbols texts else [] := by
  have hstage (stage : String) : (settings.stageRemarks stage).filterMap Remark.symbol? = [] := by
    unfold stageRemarks
    split <;> rfl
  have hremarks (s : Symbol) : (settings.remarks s).filterMap Remark.symbol? =
      if 1 ≤ settings.verbosity then [s] else [] := by
    rw [remarks, List.filterMap_append, List.filterMap_append, hstage, List.nil_append]
    split <;> split <;> first | rfl | exact congrArg _ (hstage _)
  rw [allRemarks, List.filterMap_flatMap]
  simp only [hremarks]
  split
  · exact List.flatMap_singleton' _
  · exact List.flatMap_eq_nil_iff.2 fun _ _ => rfl

/-- The stages that are timed are those of reading a signature and of its linker name. -/
theorem Settings.stage_of_mem_allRemarks {settings : Settings} {texts : List String}
    {stage : String} (h : .took stage ∈ settings.allRemarks texts) :
    stage = "Parsing" ∨ stage = "Mangling" := by
  have hstage {stage' : String} (h : .took stage ∈ settings.stageRemarks stage') :
      stage = stage' := by
    unfold stageRemarks at h
    split at h
    · exact Remark.took.inj (List.mem_singleton.1 h)
    · cases h
  obtain ⟨s, -, h⟩ := List.mem_flatMap.1 h
  rw [remarks, List.mem_append, List.mem_append] at h
  obtain (h | h) | h := h
  · exact .inl (hstage h)
  · split at h <;> simp at h
  · split at h
    · exact .inr (hstage h)
    · cases h

theorem not_mem_fixedPlaces (places : Nat) (negative : Bool) (size : Rat) :
    '\n' ∉ fixedPlaces places negative size := by
  have hdigits (n : Nat) : '\n' ∉ Nat.toDigits 10 n := fun h =>
    absurd (Nat.isDigit_of_mem_toDigits (by decide) (by decide) h) (by decide)
  cases negative <;> simp [fixedPlaces, paddedDigits, hdigits]

theorem not_mem_showDuration (d : Binary64) : '\n' ∉ (showDuration d).toList := by
  cases d with
  | finite negative size =>
    rw [showDuration, String.toList_ofList]
    exact not_mem_fixedPlaces _ _ _
  | infinite negative => cases negative <;> decide
  | undefined => decide

section
variable {clock : List Reading} {j : Nat} {remarks : List Remark} {said : List String}

/-- The lines with the mark are those of the symbols. -/
theorem Said.filter_treeMark (h : Said clock j remarks said) :
    (said.map String.toList).filter (treeMark.isPrefixOf ·) =
      (remarks.filterMap Remark.symbol?).map (treeMark ++ Symbol.display ·) := by
  have htimer (line : String) : treeMark.isPrefixOf ("[timer] " ++ line).toList = false := by
    rw [String.toList_append]
    rfl
  have htree (s : Symbol) : ("[tree] " ++ s.displayed).toList = treeMark ++ s.display := by
    rw [String.toList_append]
    exact congrArg (treeMark ++ ·) String.toList_ofList
  induction h with
  | nil => rfl
  | took _ _ ih =>
    rw [List.map_cons, List.filter_cons_of_neg, ih]
    · rfl
    · rw [String.append_assoc, String.append_assoc, String.append_assoc, htimer]
      exact Bool.false_ne_true
  | tree _ ih =>
    rw [List.map_cons, htree, List.filter_cons_of_pos, ih]
    · rfl
    · exact List.isPrefixOf_iff_prefix.2 (List.prefix_append _ _)

/-- No line that is said has a line break in it. -/
theorem Said.not_mem_line (h : Said clock j remarks said)
    (hstages : ∀ stage, .took stage ∈ remarks → '\n' ∉ stage.toList) :
    ∀ line ∈ said, '\n' ∉ line.toList := by
  induction h with
  | nil => exact fun _ h => absurd h List.not_mem_nil
  | @took _ d stage _ _ _ _ ih =>
    refine List.forall_mem_cons.2 ⟨?_, ih fun s hs => hstages s (List.mem_cons_of_mem _ hs)⟩
    have hstage := hstages stage List.mem_cons_self
    have hduration := not_mem_showDuration d
    simp [hstage, hduration]
  | @tree _ s _ _ _ ih =>
    refine List.forall_mem_cons.2 ⟨?_, ih fun s hs => hstages s (List.mem_cons_of_mem _ hs)⟩
    have hs : '\n' ∉ s.displayed.toList := Symbol.not_mem_displayed (by decide)
    simp [hs]

end

/-! ## Lines of a run -/

/-- What a command printed to the output of this name. -/
inductive Command.Printed (c : Command) (name : String) : String → Prop
  | standard : name = "-" → c.run.files = c.files → Printed c name c.run.stdout
  | file {target : Target} {text : String} : name ≠ "-" → c.files.target name = .ok target →
    c.run.stdout = "" → c.run.files = c.files.writeTo target text → Printed c name text
  /-- An output that cannot be opened has nothing printed to it. -/
  | nowhere {why : PathFault} : name ≠ "-" → c.files.target name = .error why →
    c.run.stdout = "" → c.run.files = c.files → Printed c name ""

/-- The lines of an output and of a log, from a run that handled some texts and ended so, stand for
some of the symbols of the texts: `printed` for the lines of the output, `said` for those of the log
with the mark. -/
structure LinesStandFor (settings : Settings) (texts : List String) (ending : Ending)
    (output log : String) (printed said : List Symbol) : Prop where
  printed_first : printed <+: acceptedSymbols texts
  said_first : said <+: acceptedSymbols texts
  /-- There are no other signatures, unless the run broke off. -/
  all : (∀ why, ending ≠ .stopped (.crashed why)) → printed = acceptedSymbols texts ∧
    said = if 1 ≤ settings.verbosity then acceptedSymbols texts else []
  output_lines : settings.format = .tree →
    Text.splitLines output.toList = printed.map Symbol.display ++ [[]]
  /-- What is said of a text that is no signature comes behind all lines with the mark. -/
  log_lines : ∃ before behind, Text.splitLines log.toList = before ++ behind ∧
    before.filter (treeMark.isPrefixOf ·) = said.map (treeMark ++ Symbol.display ·) ∧
    (behind = [[]] ∨ ∃ text why, (texts.dropWhile accepts).head? = some text ∧
      parse text = .error (.rejected why) ∧
      behind = Text.splitLines (Text.unlines (why.lines text)).toList)

theorem splitLines_displayed (symbols : List Symbol) :
    Text.splitLines (Text.unlines (symbols.map Symbol.displayed)).toList =
      symbols.map Symbol.display ++ [[]] := by
  rw [Text.splitLines_unlines, List.map_map]
  · exact congrArg (· ++ [[]]) (List.map_congr_left fun _ _ => String.toList_ofList)
  · intro line hline
    obtain ⟨s, -, rfl⟩ := List.mem_map.1 hline
    exact Symbol.not_mem_displayed (by decide)

/-- The lines that are printed for the first signatures, and the first remarks on them, stand for
their symbols, whatever is said behind. -/
theorem exists_linesStandFor {clock : List Reading} {settings : Settings}
    {texts shown lines said : List String} {remarks : List Remark} {ending : Ending} {last : String}
    (hshown : shown <+: texts.takeWhile accepts)
    (hlines : List.Forall₂ settings.format.Shows shown lines)
    (hremarks : remarks <+: settings.allRemarks texts) (hsaid : Said clock 0 remarks said)
    (hall : (∀ why, ending ≠ .stopped (.crashed why)) →
      shown = texts.takeWhile accepts ∧ remarks = settings.allRemarks texts)
    (hlast : last = "" ∨ ∃ text why, (texts.dropWhile accepts).head? = some text ∧
      parse text = .error (.rejected why) ∧ last = Text.unlines (why.lines text)) :
    ∃ printed said', LinesStandFor settings texts ending (Text.unlines lines)
      (Text.unlines said ++ last) printed said' := by
  obtain ⟨printed, hprinted, hsymbols, htree⟩ := exists_symbols_of_shows hshown hlines
  have hsymbolsSaid := settings.symbols_allRemarks texts
  refine ⟨printed, remarks.filterMap Remark.symbol?, hprinted, ?_, fun h => ?_, fun hformat => ?_,
    said.map String.toList, Text.splitLines last.toList, ?_, hsaid.filter_treeMark, ?_⟩
  · -- Where no detail was asked for there are no remarks, so no symbols are said.
    have hfirst := hremarks.filterMap Remark.symbol?
    rw [hsymbolsSaid] at hfirst
    split at hfirst
    · exact hfirst
    · exact hfirst.trans List.nil_prefix
  · obtain ⟨hshownAll, rfl⟩ := hall h
    exact ⟨hsymbols hshownAll, hsymbolsSaid⟩
  · rw [htree hformat, splitLines_displayed]
  · refine Text.splitLines_unlines_append (hsaid.not_mem_line fun stage hstage => ?_) last
    obtain rfl | rfl := Settings.stage_of_mem_allRemarks (hremarks.subset hstage) <;> decide
  · obtain rfl | ⟨text, why, htext, hwhy, rfl⟩ := hlast
    · exact .inl rfl
    · exact .inr ⟨text, why, htext, hwhy, rfl⟩

/-- However a run ends, its lines stand for symbols. -/
theorem Handled.exists_symbols {clock : List Reading} {settings : Settings} {texts : List String}
    {ending : Ending} {p : Progress} (h : Handled clock settings texts ending p) :
    ∃ printed said, LinesStandFor settings texts ending (Text.unlines p.output)
      (Text.unlines p.log) printed said := by
  cases h with
  | @finished said _ _ _ hlines hsaid =>
    rw [← String.append_empty (s := Text.unlines said)]
    exact exists_linesStandFor List.prefix_rfl hlines List.prefix_rfl hsaid
      (fun _ => ⟨rfl, rfl⟩) (.inl rfl)
  | @rejected text _ said _ why _ hdrop hwhy hlines hsaid =>
    have htext : (texts.dropWhile accepts).head? = some text := congrArg List.head? hdrop
    rw [Text.unlines_append]
    exact exists_linesStandFor List.prefix_rfl hlines List.prefix_rfl hsaid
      (fun _ => ⟨rfl, rfl⟩) (.inr ⟨text, why, htext, hwhy, rfl⟩)
  | @interrupted _ said _ _ _ _ _ hremarks hshown hlines hsaid =>
    rw [← String.append_empty (s := Text.unlines said)]
    exact exists_linesStandFor hshown hlines (hremarks ▸ List.prefix_append _ _) hsaid
      (fun h => absurd rfl (h _)) (.inl rfl)

/-- A run prints and says what handling its signatures comes to, if its output can be opened. -/
theorem Command.printed_cases {c : Command} {q : Request} {texts : List String} {ending : Ending}
    {p : Progress} (hq : q.AskedBy c.args) (htexts : c.Gathers q texts)
    (h : handled c.clock q.settings texts = (ending, p)) :
    (c.run.ending = ending ∧ c.run.stderr = Text.unlines p.log ∧
        c.Printed q.output (Text.unlines p.output)) ∨
      ∃ why, c.run.ending = .stopped (.crashed (.path why)) ∧ c.run.stderr = "" ∧
        c.Printed q.output "" := by
  have hrun := run_eq_report hq htexts
  by_cases hname : q.output = "-"
  · rw [hname, report_standard h] at hrun
    have hprinted : c.run.stdout = Text.unlines p.output := by rw [hrun]
    refine .inl ⟨by rw [hrun], by rw [hrun], hprinted ▸ .standard hname (by rw [hrun])⟩
  · cases htarget : c.files.target q.output with
    | ok target =>
      rw [report_file h hname htarget] at hrun
      exact .inl ⟨by rw [hrun], by rw [hrun],
        .file hname htarget (by rw [hrun]) (by rw [hrun])⟩
    | error why =>
      rw [report, h, Channel.named_of_ne hname] at hrun
      simp only [htarget] at hrun
      exact .inr ⟨why, by rw [hrun]; rfl, by rw [hrun]; rfl,
        .nowhere hname htarget (by rw [hrun]; rfl) (by rw [hrun]; rfl)⟩

/-! ## Main theorem -/

/-- Symbols with the same one-line form are the same, and this form is printable, so that no line
ends in it. So each line that a command prints in the tree format stands for one symbol, and so does
each line of its log with the mark of a tree: those of its signatures, one each, in turn. -/
theorem displayed_identifies :
    (∀ a b : Symbol, a.displayed = b.displayed ↔ a = b) ∧
    (∀ s : Symbol, ∀ c ∈ s.displayed.toList, Text.isPrintable c = true ∧ c ∉ Text.lineBreaks) ∧
    ∀ (c : Command) (q : Request) (texts : List String), q.AskedBy c.args → c.Gathers q texts →
      (acceptedSymbols texts).map .ok = (texts.takeWhile accepts).map Symbol.ofText ∧
      ∃ output printed said, c.Printed q.output output ∧
        LinesStandFor q.settings texts c.run.ending output c.run.stderr printed said := by
  refine ⟨fun a b => Symbol.displayed_inj, fun s c hc => ?_, fun c q texts hq htexts => ?_⟩
  · have hprintable := Symbol.isPrintable_of_mem_displayed hc
    exact ⟨hprintable, Text.not_mem_lineBreaks hprintable⟩
  refine ⟨map_ok_acceptedSymbols texts, ?_⟩
  obtain ⟨ending, p, hhandled, hcases⟩ := Command.handled_cases c.clock q.settings texts
  obtain ⟨hending, hlog, hprinted⟩ | ⟨why, hending, hlog, hprinted⟩ :=
    Command.printed_cases hq htexts hhandled
  · obtain ⟨printed, said, hlines⟩ := hcases.exists_symbols
    rw [hending, hlog]
    exact ⟨_, printed, said, hprinted, hlines⟩
  · rw [hending, hlog]
    exact ⟨"", [], [], hprinted, List.nil_prefix, List.nil_prefix, fun h => absurd rfl (h _),
      fun _ => rfl, [], [[]], rfl, rfl, .inl rfl⟩

/-- A line for the signature before a text that is none, in the output and in the log. -/
theorem displayed_identifies_rejection :
    let c : Command := ⟨["-v", "-f", "tree", "f(int)", "g(int x)"], "", [], []⟩
    let f : Symbol := .function (.path [.type "f"]) [.typed (.type "int") []]
    c.run.ending = .stopped .rejected ∧ Text.splitLines c.run.stdout.toList = [f.display, []] ∧
      ∃ before behind, Text.splitLines c.run.stderr.toList = before ++ behind ∧
        before.filter (treeMark.isPrefixOf ·) = [treeMark ++ f.display] := by
  intro c f
  let q : Request := ⟨["f(int)", "g(int x)"], none, "-", .tree, 1⟩
  have hq : q.AskedBy c.args := ⟨_, rfl, rfl, rfl, rfl, rfl, rfl⟩
  have htexts : c.Gathers q q.signatures := .arguments rfl (List.cons_ne_nil _ _)
  have hending : c.run.ending = .stopped .rejected := by decide +kernel
  have hsymbols : acceptedSymbols q.signatures = [f] := by decide +kernel
  obtain ⟨-, -, hruns⟩ := displayed_identifies
  obtain ⟨-, output, printed, said, houtput, hlines⟩ := hruns c q q.signatures hq htexts
  obtain ⟨hprinted, hsaid⟩ := hlines.all (by rw [hending]; rintro _ ⟨⟩)
  obtain ⟨before, behind, hlog, hmarked, -⟩ := hlines.log_lines
  rw [hsymbols] at hprinted hsaid
  subst hprinted hsaid
  refine ⟨hending, ?_, before, behind, hlog, hmarked⟩
  cases houtput with
  | standard => exact hlines.output_lines rfl
  | file hname => exact absurd rfl hname
  | nowhere hname => exact absurd rfl hname

end LinkerNames
