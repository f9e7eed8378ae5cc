import LinkerNames.Proofs.CommandLine.Request
import LinkerNames.Proofs.Text.Lines
/-!
# Output in a file

A command may print to a file of its directory. The file then holds what would have been printed,
whatever it held before, and all else is as if it had been printed: `run_redirected`. The signatures
are all there before the file is opened, so that it may be the one that they are read from.
-/

namespace LinkerNames

/-- A name that a file of a directory can have. -/
structure IsFileName (name : String) : Prop where
  ne_empty : name ≠ ""
  ne_dot : name ≠ "."
  ne_dots : name ≠ ".."
  no_slash : '/' ∉ name.toList
  no_nul : '\x00' ∉ name.toList
  size_le : name.utf8ByteSize ≤ Directory.maxNameSize

/-! ## Files -/

namespace Directory

variable {d : Directory} {name other text : String}

theorem steps_of_no_slash {cs : List Char} (hcs : cs ≠ []) (h : '/' ∉ cs) :
    steps cs = [String.ofList cs] := by
  rw [steps, Text.splitAt_of_not_mem h]
  simp [hcs]

/-- The name of a file leads to the file. -/
theorem target_of_isFileName (d : Directory) (h : IsFileName name) :
    d.target name = .ok (.file name) := by
  have hne : name.toList ≠ [] := mt String.toList_eq_nil_iff.1 h.ne_empty
  have hhead : name.toList.head? ≠ some '/' := fun hs => h.no_slash (List.mem_of_head? hs)
  have hlast : name.toList.getLast? ≠ some '/' := fun hs => h.no_slash (List.mem_of_getLast? hs)
  have hpath : ¬ maxPathSize < name.utf8ByteSize :=
    Nat.not_lt.2 (Nat.le_trans h.size_le (by decide))
  simp only [target, if_neg h.no_nul, if_neg hne, if_neg hpath, if_neg hhead, hlast, decide_false,
    steps_of_no_slash hne h.no_slash, String.ofList_toList, walk, arrive, h.ne_dot, h.ne_dots,
    Bool.false_eq_true, or_self, if_false, if_neg (Nat.not_lt.2 h.size_le)]

theorem lookup_write_self (d : Directory) (name text : String) :
    (d.write name text).lookup name = some text := by
  cases hheld : d.holds name with
  | true =>
    rw [write, hheld, if_pos rfl]
    induction d with
    | nil => cases hheld
    | cons file d ih =>
      by_cases hname : file.1 = name
      · simp [hname]
      · rw [holds, List.any_cons, beq_false_of_ne hname, Bool.false_or] at hheld
        rw [List.map_cons, if_neg hname, List.lookup_cons, beq_false_of_ne (Ne.symm hname)]
        exact ih hheld
  | false =>
    have hnone : d.lookup name = none := by
      refine List.lookup_eq_none_iff.2 fun file hfile => bne_iff_ne.2 fun hname => ?_
      exact List.any_eq_false.1 hheld file hfile (beq_iff_eq.2 hname.symm)
    rw [write, hheld, if_neg Bool.false_ne_true, List.lookup_append, hnone]
    simp

/-- Writing to a file changes no other. -/
theorem lookup_write_of_ne (d : Directory) (text : String) (h : other ≠ name) :
    (d.write name text).lookup other = d.lookup other := by
  cases hheld : d.holds name with
  | true =>
    rw [write, hheld, if_pos rfl]
    clear hheld
    induction d with
    | nil => rfl
    | cons file d ih =>
      by_cases hname : file.1 = name
      · rw [List.map_cons, if_pos hname, List.lookup_cons, List.lookup_cons, ih, hname]
        simp [beq_false_of_ne h]
      · rw [List.map_cons, if_neg hname, List.lookup_cons, List.lookup_cons, ih]
  | false =>
    rw [write, hheld, if_neg Bool.false_ne_true, List.lookup_append, List.lookup_cons,
      beq_false_of_ne h]
    exact Option.or_none

end Directory

/-! ## Commands that come to their signatures -/

namespace Command

variable {c : Command} {q : Request} {o : Options} {e : Ending}

/-- An input that cannot be read is a wrong argument, or breaks the run off without a word. -/
theorem eq_misused_or_crashed_of_input (h : c.input o = .error e) :
    (∃ why, e = .misused why) ∨ ∃ why, e = .stopped (.crashed why) := by
  unfold input Options.inputFrom at h
  cases hsource : o.source with
  | none =>
    rw [hsource] at h
    cases h
  | some channel =>
    rw [hsource] at h
    cases channel with
    | standard => cases h
    | file path =>
      simp only [textFrom] at h
      cases hread : c.files.read path with
      | ok text =>
        rw [hread] at h
        cases h
      | error why =>
        rw [hread] at h
        cases why with
        | holdsNul =>
          cases h
          exact .inr ⟨_, rfl⟩
        | missing | isDirectory | notDirectory | tooLong =>
          cases h
          exact .inl ⟨_, rfl⟩

/-- Where there is an input to read, or none is asked for, signatures are gathered. -/
theorem exists_gathers_of_input {input : Option String} (h : c.input o = .ok input)
    (hsignatures : o.signatures = q.signatures) (hinput : o.input = q.input) :
    ∃ texts, c.Gathers q texts := by
  unfold Command.input Options.inputFrom Options.source at h
  rw [hsignatures, hinput] at h
  cases hname : q.input with
  | none =>
    by_cases hnil : q.signatures = []
    · exact ⟨_, .standardInput hname hnil⟩
    · exact ⟨_, .arguments hname hnil⟩
  | some name =>
    by_cases hdash : name = "-"
    · exact ⟨_, .dash (hdash ▸ hname)⟩
    · rw [hname] at h
      simp only [Channel.named_of_ne hdash, textFrom] at h
      cases hread : c.files.read name with
      | ok text => exact ⟨_, .file hname hdash hread⟩
      | error why =>
        rw [hread] at h
        cases why <;> cases h

/-- A command that was asked for something rightly, and did not crash, came to its signatures. -/
theorem exists_gathers (hq : q.AskedBy c.args) (hcode : c.run.ending.exitCode ≤ 1)
    (hcrash : ∀ why, c.run.ending ≠ .stopped (.crashed why)) : ∃ texts, c.Gathers q texts := by
  obtain ⟨o, ho, hhelp, hsignatures, hname, -, hsettings⟩ := hq
  cases hinput : c.input o with
  | ok input => exact exists_gathers_of_input hinput hsignatures hname
  | error e =>
    have hending : c.run.ending = e := by
      rw [run_of_input_error ho hhelp hsettings hinput]
      rfl
    rw [hending] at hcode hcrash
    obtain ⟨why, rfl⟩ | ⟨why, rfl⟩ := eq_misused_or_crashed_of_input hinput
    · exact absurd hcode (Nat.not_succ_le_self 1)
    · exact absurd rfl (hcrash why)

end Command

/-! ## Main theorem -/

/-- A command that prints to the standard output and does not crash can print to a file instead.
It ends as before and says the same. The file has what was printed, and nothing else of what it
had, and all other files are as they were. -/
theorem run_redirected {c c' : Command} {q : Request} {name : String} (hq : q.AskedBy c.args)
    (houtput : q.output = "-") (hq' : Request.AskedBy { q with output := name } c'.args)
    (hstdin : c'.stdin = c.stdin) (hfiles : c'.files = c.files) (hclock : c'.clock = c.clock)
    (hcode : c.run.ending.exitCode ≤ 1) (hcrash : ∀ why, c.run.ending ≠ .stopped (.crashed why))
    (hdash : name ≠ "-") (hname : IsFileName name) :
    c'.run.ending = c.run.ending ∧ c'.run.stderr = c.run.stderr ∧ c'.run.stdout = "" ∧
      c'.run.files.lookup name = some c.run.stdout ∧
      (∀ other, other ≠ name → c'.run.files.lookup other = c.files.lookup other) ∧
      c.run.files = c.files := by
  obtain ⟨texts, htexts⟩ := Command.exists_gathers hq hcode hcrash
  have hrun := Command.run_eq_report hq htexts
  have hrun' := Command.run_eq_report hq' (htexts.congr rfl rfl hstdin hfiles)
  have htarget : c'.files.target name = .ok (.file name) :=
    Directory.target_of_isFileName _ hname
  -- Both handle the same signatures, and with the same clock.
  obtain ⟨ending, p, hhandled⟩ : ∃ ending p,
      Command.handled c.clock q.settings texts = (ending, p) := ⟨_, _, rfl⟩
  rw [houtput, Command.report_standard hhandled] at hrun
  rw [Command.report_file (hclock ▸ hhandled) hdash htarget, hfiles] at hrun'
  rw [hrun, hrun']
  exact ⟨rfl, rfl, rfl, Directory.lookup_write_self _ _ _,
    fun _ hother => Directory.lookup_write_of_ne _ _ hother, rfl⟩

/-- The file that the signatures are read from is the one printed to. -/
theorem run_redirected_onto_input :
    let files : Directory := [("f", "h()\ng(int x)\n"), ("other", "text")]
    let c : Command := ⟨["-i", "f"], "", files, []⟩
    let c' : Command := ⟨["-i", "f", "-o", "f"], "", files, []⟩
    c.run.ending = .stopped .rejected ∧ c.run.stdout = "_ZN1hE\n" ∧
      c'.run.ending = c.run.ending ∧ c'.run.stdout = "" ∧
      c'.run.files.lookup "f" = some c.run.stdout ∧
      c'.run.files.lookup "other" = some "text" := by
  intro files c c'
  let q : Request := ⟨[], some "f", "-", .symbol, 0⟩
  have hq : q.AskedBy c.args := ⟨_, rfl, rfl, rfl, rfl, rfl, rfl⟩
  have hq' : Request.AskedBy { q with output := "f" } c'.args :=
    ⟨_, rfl, rfl, rfl, rfl, rfl, rfl⟩
  have hending : c.run.ending = .stopped .rejected := by decide +kernel
  have hprinted : c.run.stdout = "_ZN1hE\n" := by decide +kernel
  have hname : IsFileName "f" := by constructor <;> decide
  obtain ⟨hend, -, hstdout, hself, hothers, -⟩ :=
    run_redirected hq rfl hq' rfl rfl rfl (by rw [hending]; decide)
      (by rw [hending]; rintro _ ⟨⟩) (by decide) hname
  exact ⟨hending, hprinted, hend, hstdout, hself, hothers "other" (by decide)⟩

end LinkerNames
