import SqlScript.Command.Run
import SqlScript.Proofs.Command.Files
import SqlScript.Proofs.Script.Compose

/-!
# The command line and the library

The command line scans and reads by itself, since it has to stop at a script without tokens and to
measure the time that reading takes. What it answers is all the same what `readSource` makes of the
script, and at most one file is written (`run_agrees`), on every system to be relied on.
-/

namespace SqlScript.Command

variable {σ F : Type} {system : System (StateM σ)} {files : σ → Files F} {args : List String}
  {s : σ} {o : Options} {source : Source}

theorem toUTF8_of_fromUTF8? {bytes : ByteArray} {text : String}
    (h : String.fromUTF8? bytes = some text) : text.toUTF8 = bytes := by
  rw [String.fromUTF8?] at h
  split at h
  · cases h
    rfl
  · cases h

namespace Options

/-- The script that is to be read, under its label. -/
def source? (o : Options) (system : System (StateM σ)) (s : σ) : Option Source :=
  ((o.fetch system).run s).1.toOption.bind fun bytes =>
    (String.fromUTF8? bytes).map fun text => ⟨o.label.getD (o.input.getD "<stdin>"), text⟩

/-- What is not asked for by an option stays as it was. -/
theorem read_untouched {o' : Options} (h : o.read args = .ok (some o')) :
    ("--out" ∉ args → o'.output = o.output) ∧ ("--name" ∉ args → o'.label = o.label) ∧
      ("--inline-limit" ∉ args → o'.inlineLimit = o.inlineLimit) := by
  fun_induction read o args <;> simp_all

theorem fetch_files (h : system.Lawful files) (o : Options) (s : σ) :
    files ((o.fetch system).run s).2 = files s := by
  rw [fetch]
  cases o.input with
  | none => exact h.stdin s
  | some path => exact h.read path s

/-- The state in which a tree is done with: the input and the time that reading took are known. -/
def settled (o : Options) (system : System (StateM σ)) (s : σ) : σ :=
  let started := system.now.run ((o.fetch system).run s).2
  ((system.elapsed started.1).run started.2).2

theorem settled_files (h : system.Lawful files) (o : Options) (s : σ) :
    files (o.settled system s) = files s :=
  (h.elapsed _ _).trans ((h.now _).trans (fetch_files h o s))

/-- What is to be read from a file is what is in the file. -/
theorem source?_file {path : String} (h : system.Lawful files)
    (hsource : o.source? system s = some source) (hpath : o.input = some path) :
    ∃ f, (files s).file? path = some f ∧ (files s).content f = some source.text.toUTF8 := by
  obtain ⟨bytes, hbytes, hsource⟩ := Option.bind_eq_some_iff.mp hsource
  obtain ⟨text, htext, rfl⟩ := Option.map_eq_some_iff.mp hsource
  rw [fetch, hpath] at hbytes
  change ((system.read path).run s).1.toOption = some bytes at hbytes
  cases hread : ((system.read path).run s).1 with
  | error e =>
    rw [hread] at hbytes
    cases hbytes
  | ok found =>
    rw [hread] at hbytes
    cases hbytes
    obtain ⟨f, hf, hcontent⟩ := h.read_ok path s bytes hread
    exact ⟨f, hf, hcontent.trans (congrArg some (toUTF8_of_fromUTF8? htext).symm)⟩

end Options

/-! ## What a call does -/

theorem program_of_options_error {e : OptionError} (he : Options.ofArgs args = .error e) :
    (program system args).run s = (⟨2, usage, "Error: " ++ e.message ++ "\n"⟩, s) := by
  rw [program, start, he]
  rfl

theorem program_of_help (h : Options.ofArgs args = .ok none) :
    (program system args).run s = (.good usage, s) := by
  rw [program, start, h]
  rfl

/-- The program, once the options are known. -/
theorem program_of_options (ho : Options.ofArgs args = .ok (some o)) :
    (program system args).run s =
      match prepare o ((o.fetch system).run s).1 with
      | .error e => (.ofError e, ((o.fetch system).run s).2)
      | .ok (source, tokens) =>
        (treat system o source tokens).run ((o.fetch system).run s).2 := by
  rw [program, start, ho]
  simp only [StateT.run_bind]
  rcases (o.fetch system).run s with ⟨input, s'⟩
  simp only [bind]
  cases prepare o input <;> rfl

theorem prepare_unreadable (h : o.source? system s = none) :
    ∃ message, prepare o ((o.fetch system).run s).1 = .error (.file message) := by
  rw [Options.source?] at h
  cases hinput : ((o.fetch system).run s).1 with
  | error message => exact ⟨message, rfl⟩
  | ok bytes =>
    have htext : String.fromUTF8? bytes = none := by
      simpa [hinput, Except.toOption] using h
    exact ⟨"stream did not contain valid UTF-8", by
      simp only [prepare, Except.mapError, bind, Except.bind, htext]⟩

theorem prepare_source (h : o.source? system s = some source) :
    prepare o ((o.fetch system).run s).1 =
      match source.tokens with
      | .error e => .error (.scan e)
      | .ok [] => .error .empty
      | .ok tokens => .ok (source, tokens) := by
  obtain ⟨bytes, hbytes, h⟩ := Option.bind_eq_some_iff.mp h
  obtain ⟨text, htext, rfl⟩ := Option.map_eq_some_iff.mp h
  cases hinput : ((o.fetch system).run s).1 with
  | error message => simp [hinput, Except.toOption] at hbytes
  | ok input =>
    obtain rfl : input = bytes := by simpa [hinput, Except.toOption] using hbytes
    simp only [prepare, Except.mapError, bind, Except.bind, htext, scanSource]
    cases hts : Source.tokens ⟨o.label.getD (o.input.getD "<stdin>"), text⟩ with
    | error e => rfl
    | ok ts => cases ts <;> rfl

theorem treeOf_eq {ts : List Token} (h : source.tokens = .ok ts) :
    treeOf ts = readSource Reader.defaultDepth source := by
  rw [readSource_of_tokens h, treeOf]

/-! ## What is done with a script -/

theorem treat_of_error {tokens : List Token} {e : Error} (he : treeOf tokens = .error e) :
    (treat system o source tokens).run s = (.ofError e, (system.now.run s).2) := by
  simp only [treat, he]
  rfl

theorem treat_of_tree {tokens : List Token} {ss : List (Statement (Span Token))}
    (hss : treeOf tokens = .ok ss) :
    ∃ nanoseconds, (treat system o source tokens).run ((o.fetch system).run s).2 =
      ((conclude o source ss nanoseconds).carryOut system).run (o.settled system s) := by
  let started := system.now.run ((o.fetch system).run s).2
  refine ⟨((system.elapsed started.1).run started.2).1, ?_⟩
  simp only [treat, hss]
  rfl

theorem carryOut_save (path text : String) (saved : Answer) :
    ((Ending.save path text saved).carryOut system).run s =
      match (system.write path text.toUTF8).run s with
      | (.ok (), s') => (saved, s')
      | (.error message, s') => (.ofError (.file message), s') := by
  rw [Ending.carryOut, StateT.run_bind]
  rcases (system.write path text.toUTF8).run s with ⟨_ | _, s'⟩ <;> rfl

theorem program_of_unreadable (ho : Options.ofArgs args = .ok (some o))
    (h : o.source? system s = none) :
    ∃ message, (program system args).run s =
      (.ofError (.file message), ((o.fetch system).run s).2) := by
  obtain ⟨message, hprepare⟩ := prepare_unreadable h
  exact ⟨message, by rw [program_of_options ho, hprepare]⟩

theorem program_of_empty (ho : Options.ofArgs args = .ok (some o))
    (h : o.source? system s = some source) (hempty : source.tokens = .ok []) :
    (program system args).run s = (.ofError .empty, ((o.fetch system).run s).2) := by
  rw [program_of_options ho, prepare_source h, hempty]

/-- A call that has tokens to read does with them what is done with any script. -/
theorem program_of_tokens (ho : Options.ofArgs args = .ok (some o))
    (h : o.source? system s = some source) (hsome : source.tokens ≠ .ok []) :
    (program system args).run s =
      match source.tokens with
      | .error e => (.ofError (.scan e), ((o.fetch system).run s).2)
      | .ok tokens => (treat system o source tokens).run ((o.fetch system).run s).2 := by
  rw [program_of_options ho, prepare_source h]
  cases hts : source.tokens with
  | error e => rfl
  | ok ts =>
    cases ts with
    | nil => exact absurd hts hsome
    | cons t ts => rfl

theorem program_of_error (hsystem : system.Lawful files)
    (ho : Options.ofArgs args = .ok (some o)) (h : o.source? system s = some source)
    (hsome : source.tokens ≠ .ok []) {e : Error}
    (he : readSource Reader.defaultDepth source = .error e) :
    ∃ s', files s' = files s ∧ (program system args).run s = (.ofError e, s') := by
  have hfetch := Options.fetch_files hsystem o s
  rw [program_of_tokens ho h hsome]
  cases hts : source.tokens with
  | error cause =>
    rw [readSource_of_scanError hts] at he
    cases he
    exact ⟨_, hfetch, rfl⟩
  | ok ts =>
    rw [← treeOf_eq hts] at he
    exact ⟨_, (hsystem.now _).trans hfetch, treat_of_error he⟩

theorem program_of_tree (ho : Options.ofArgs args = .ok (some o))
    (h : o.source? system s = some source) (hsome : source.tokens ≠ .ok [])
    {ss : List (Statement (Span Token))}
    (hss : readSource Reader.defaultDepth source = .ok ss) :
    ∃ nanoseconds, (program system args).run s =
      ((conclude o source ss nanoseconds).carryOut system).run (o.settled system s) := by
  rw [program_of_tokens ho h hsome]
  cases hts : source.tokens with
  | error cause =>
    rw [readSource_of_scanError hts] at hss
    cases hss
  | ok ts =>
    rw [← treeOf_eq hts] at hss
    exact treat_of_tree hss

/-! ## Agreement -/

/-- What a script comes to: what is answered and what becomes of the files. -/
structure Treated (system : System (StateM σ)) (files : σ → Files F) (o : Options)
    (source : Source) (s : σ) (answer : Answer) (s' : σ) : Prop where
  empty : source.tokens = .ok [] →
    answer = ⟨0, "Lexer returned empty result\n", ""⟩ ∧ files s' = files s
  failed : ∀ e, readSource Reader.defaultDepth source = .error e →
    answer.status = 1 ∧ answer.out = "" ∧ files s' = files s ∧
      ((∃ cause, e = .scan cause ∧ answer.err = "Lexer error at: " ++ cause.remaining ++ "\n(" ++
          cause.reason.message ++ " at position " ++ toString cause.position ++ ")\n") ∨
        ∃ cause, e = .read cause ∧ answer.err = cause.render ++ "\n")
  shown : ∀ ss, source.tokens ≠ .ok [] → readSource Reader.defaultDepth source = .ok ss →
    (scriptJson ss).utf8ByteSize < o.inlineLimit →
    answer.status = 0 ∧ answer.err = "" ∧ files s' = files s ∧
      ∃ more, answer.out = "ast: " ++ scriptJson ss ++ more
  /-- The tree is written to the output file, and then it is there, or this fails. -/
  saved : ∀ ss, source.tokens ≠ .ok [] → readSource Reader.defaultDepth source = .ok ss →
    o.inlineLimit ≤ (scriptJson ss).utf8ByteSize →
    ∃ result,
      (system.write o.output (scriptJson ss).toUTF8).run (o.settled system s) = (result, s') ∧
      (result = .ok () → answer.status = 0 ∧ answer.err = "" ∧
        (files s).Wrote o.output (scriptJson ss).toUTF8 (files s')) ∧
      ∀ message, result = .error message →
        answer = ⟨1, "", "Error: I/O error: " ++ message ++ "\n"⟩ ∧ files s' = files s

theorem program_treated (h : system.Lawful files) (ho : Options.ofArgs args = .ok (some o))
    (hsource : o.source? system s = some source) :
    Treated system files o source s ((program system args).run s).1
      ((program system args).run s).2 := by
  by_cases hempty : source.tokens = .ok []
  · rw [program_of_empty ho hsource hempty]
    refine ⟨fun _ => ⟨rfl, Options.fetch_files h o s⟩, fun e he => ?_,
      fun _ hsome => absurd hempty hsome, fun _ hsome => absurd hempty hsome⟩
    rw [readSource_of_tokens hempty] at he
    cases he
  · refine ⟨fun h => absurd h hempty, fun e he => ?_, fun ss _ hss hsize => ?_,
      fun ss _ hss hsize => ?_⟩
    · obtain ⟨s', hfiles, hrun⟩ := program_of_error h ho hsource hempty he
      rw [hrun]
      rcases readSource_error_cases he with ⟨cause, -, rfl⟩ | ⟨-, failure, -, -, rfl⟩
      · exact ⟨rfl, rfl, hfiles, .inl ⟨cause, rfl, rfl⟩⟩
      · exact ⟨rfl, rfl, hfiles, .inr ⟨_, rfl, rfl⟩⟩
    · obtain ⟨nanoseconds, hrun⟩ := program_of_tree ho hsource hempty hss
      simp only [hrun, conclude, if_pos hsize]
      refine ⟨rfl, rfl, Options.settled_files h o s, "\n" ++ (timeText nanoseconds ++ "\n"), ?_⟩
      rw [Ending.carryOut, String.append_assoc, String.append_assoc]
      rfl
    · obtain ⟨nanoseconds, hrun⟩ := program_of_tree ho hsource hempty hss
      have hok := h.write_ok o.output (scriptJson ss).toUTF8 (o.settled system s)
      have herror := h.write_error o.output (scriptJson ss).toUTF8 (o.settled system s)
      rw [Options.settled_files h] at hok herror
      simp only [hrun, conclude, if_neg (Nat.not_lt.mpr hsize), carryOut_save]
      generalize (system.write o.output (scriptJson ss).toUTF8).run _ = written at *
      obtain ⟨result, s'⟩ := written
      cases result with
      | ok _ => exact ⟨_, rfl, fun _ => ⟨rfl, rfl, hok rfl⟩, nofun⟩
      | error message =>
        refine ⟨_, rfl, nofun, ?_⟩
        rintro _ ⟨⟩
        exact ⟨rfl, herror message rfl⟩

theorem Treated.frame {answer : Answer} {s' : σ}
    (h : Treated system files o source s answer s') :
    files s' = files s ∨ ∃ ss, readSource Reader.defaultDepth source = .ok ss ∧
      (files s).Wrote o.output (scriptJson ss).toUTF8 (files s') := by
  by_cases hempty : source.tokens = .ok []
  · exact .inl (h.empty hempty).2
  · cases hread : readSource Reader.defaultDepth source with
    | error e => exact .inl (h.failed e hread).2.2.1
    | ok ss =>
      rcases Nat.lt_or_ge (scriptJson ss).utf8ByteSize o.inlineLimit with hsize | hsize
      · exact .inl (h.shown ss hempty hread hsize).2.2.1
      · obtain ⟨result, -, hok, herror⟩ := h.saved ss hempty hread hsize
        cases result with
        | ok _ => exact .inr ⟨ss, rfl, (hok rfl).2.2⟩
        | error message => exact .inl (herror message rfl).2

end SqlScript.Command
