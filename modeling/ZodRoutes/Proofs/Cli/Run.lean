/-
Runs of commands leave nothing half done.

A run that fails changes no file, and a run that succeeds writes one file at most, which holds all of its text
afterwards.  `generate` writes the module of the document that it loaded where the configuration that it loaded
says, `init` writes the configuration file, and a comparison or a dry run leaves the tree as it is.

One step says all that a run can do: it finds what it reads or fails, and then writes as a whole or not at all.
This holds of every run by itself, so it holds of every run of a sequence, whatever the runs before it have left
behind, and a file that none of them writes keeps its text to the end.
-/
import ZodRoutes.Proofs.Cli.Writing

namespace ZodRoutes.Cli

open Document (Route)

variable {tree : FileTree} {input : String} {output file config : Option String} {dryRun : Bool}
  {merged : Config} {routes : List Route}

/-! ### Exit codes -/

theorem CliError.exitCode_ne_zero (e : CliError) : e.exitCode ≠ 0 := by
  cases e <;> simp [exitCode]

/-- A run succeeds when nothing went wrong. -/
theorem Outcome.exitCode_eq_zero {outcome : Outcome} : outcome.exitCode = 0 ↔ outcome.error = none := by
  unfold exitCode
  cases outcome.error with
  | none => simp
  | some e => simp [e.exitCode_ne_zero]

/-! ### What `generate` reads -/

/-- A run of `generate` finds this configuration and these routes. -/
structure Finds (tree : FileTree) (input : String) (output file config : Option String) (merged : Config)
    (routes : List Route) : Prop where
  config : generateConfig tree output file config = .ok merged
  routes : ∃ document, loadDocument tree input = .ok document ∧ Document.readRoutes document = .ok routes

/-- A run finds one configuration and one list of routes. -/
theorem Finds.unique {merged' : Config} {routes' : List Route}
    (h : Finds tree input output file config merged routes)
    (h' : Finds tree input output file config merged' routes') : merged = merged' ∧ routes = routes' := by
  obtain ⟨hconfig, document, hdocument, hroutes⟩ := h
  obtain ⟨hconfig', document', hdocument', hroutes'⟩ := h'
  obtain rfl := Except.ok.inj (hdocument.symm.trans hdocument')
  exact ⟨Except.ok.inj (hconfig.symm.trans hconfig'), Except.ok.inj (hroutes.symm.trans hroutes')⟩

/-- The configuration is the one that its text describes. -/
theorem loadConfig_of_read? {text : String} {loaded : Config}
    (hread : tree.read? (config.getD configFile) = some text) (hloaded : Config.ofToml? text = some loaded) :
    loadConfig tree config = .ok loaded := by
  rw [loadConfig, if_pos (FileTree.isThere_of_read? hread), hread]
  simp only [parseConfig, hloaded, Option.elim_some]

/-- The routes are those that the text of a document in JSON describes. -/
theorem routes_of_read? {text : String} (hread : tree.read? input = some text)
    (hformat : SourceFormat.ofPath? input = some .json)
    (hroutes : ((Json.read? text).bind fun document => (Document.readRoutes document).toOption) = some routes) :
    ∃ document, loadDocument tree input = .ok document ∧ Document.readRoutes document = .ok routes := by
  obtain ⟨document, hdocument, hsome⟩ := Option.bind_eq_some_iff.mp hroutes
  refine ⟨document, ?_, ?_⟩
  · rw [loadDocument, if_pos (FileTree.isThere_of_read? hread), hformat, hread]
    simp only [SourceFormat.parse, hdocument, Option.elim_some]
  · cases hresult : Document.readRoutes document with
    | ok found =>
        rw [hresult] at hsome
        exact congrArg Except.ok (Option.some.inj hsome)
    | error e =>
        rw [hresult] at hsome
        cases hsome

/-- What `generate` prints before it writes. -/
def generateReport (input : String) (merged : Config) (routes : List Route) : String :=
  line ("Reading " ++ input) ++ line "Generating Zod schemas..." ++ routeReport merged routes

theorem runGenerate_of_finds (h : Finds tree input output file config merged routes) (dryRun : Bool) :
    runGenerate tree input output file dryRun config =
      writeRoutes merged dryRun tree (line ("Reading " ++ input) ++ line "Generating Zod schemas...") routes
        (merged.style.moduleText routes) := by
  obtain ⟨hconfig, document, hdocument, hroutes⟩ := h
  unfold runGenerate generateModule
  simp only [hconfig, hdocument, hroutes]

/-- What is not found is an error, and the tree stays as it is. -/
theorem finds_or_fails (tree : FileTree) (input : String) (output file : Option String) (dryRun : Bool)
    (config : Option String) :
    (∃ merged routes, Finds tree input output file config merged routes) ∨
      ∃ stdout e, runGenerate tree input output file dryRun config = (⟨stdout, some e⟩, tree) := by
  unfold runGenerate generateModule
  cases hconfig : generateConfig tree output file config with
  | error e => exact .inr ⟨_, _, rfl⟩
  | ok merged =>
      cases hdocument : loadDocument tree input with
      | error e => exact .inr ⟨_, _, rfl⟩
      | ok document =>
          cases hroutes : Document.readRoutes document with
          | error e => exact .inr ⟨_, _, by simp only [hroutes]; rfl⟩
          | ok routes => exact .inl ⟨merged, routes, hconfig, document, hdocument, hroutes⟩

/-- A dry run shows the module and writes nothing. -/
theorem runGenerate_dryRun (h : Finds tree input output file config merged routes) :
    runGenerate tree input output file true config =
      (⟨generateReport input merged routes ++
        writeReport merged.outputPath (.preview (merged.style.moduleText routes)), none⟩, tree) := by
  rw [runGenerate_of_finds h]
  rfl

/-- A run that is no dry run ends as the writing of the module does. -/
theorem runGenerate_writing (h : Finds tree input output file config merged routes) :
    ∃ result tree', Writing tree merged.outputPath (merged.style.moduleText routes) result tree' ∧
      runGenerate tree input output file false config = (match result with
        | .ok written => ⟨generateReport input merged routes ++ writeReport merged.outputPath written, none⟩
        | .error e => ⟨generateReport input merged routes, some (.write e)⟩, tree') := by
  refine ⟨_, _, writing_writeModule tree merged.outputPath (merged.style.moduleText routes), ?_⟩
  rw [runGenerate_of_finds h]
  unfold writeRoutes
  cases heq : writeModule false tree merged.outputPath (merged.style.moduleText routes) with
  | mk result tree' => cases result <;> rfl

/-! ### Single runs -/

/-- One run of a command, with the tree that it found and the tree that it left. -/
structure Run where
  command : Command
  before : FileTree
  outcome : Outcome
  after : FileTree

/-- The run of a command on a tree. -/
def Command.runOn (tree : FileTree) (command : Command) : Run :=
  ⟨command, tree, (command.run tree).1, (command.run tree).2⟩

/-- A command that is not meant to write: a comparison or a dry run. -/
def Command.OnlyLooks : Command → Prop
  | generate _ _ _ dryRun _ => dryRun = true
  | init _ _ => False
  | validate _ _ _ => True

/-- A run that leaves nothing half done. -/
structure Run.Clean (run : Run) : Prop where
  failed : run.outcome.exitCode ≠ 0 → run.before.SameFiles run.after
  looked : run.command.OnlyLooks → run.after = run.before
  generated : ∀ input output file config, run.command = .generate input output file false config →
    run.outcome.exitCode = 0 → ∃ merged routes, Finds run.before input output file config merged routes ∧
      run.before.OnlyWrites merged.outputPath (merged.style.moduleText routes) run.after
  initialized : ∀ output force, run.command = .init output force → run.outcome.exitCode = 0 →
    run.before.OnlyWrites output Config.template run.after ∧ (run.before.isThere output → force)

/-- A run that leaves its tree as it was and was not to write is clean, and so is one that fails. -/
theorem Run.Clean.of_after_eq {run : Run} (hafter : run.after = run.before)
    (h : run.command.OnlyLooks ∨ run.outcome.exitCode ≠ 0) : run.Clean := by
  refine ⟨fun _ place => by rw [hafter], fun _ => hafter, ?_, ?_⟩
  · intro input output file config hcommand hexit
    exact absurd hexit (h.resolve_left (by simp [hcommand, Command.OnlyLooks]))
  · intro output force hcommand hexit
    exact absurd hexit (h.resolve_left (by simp [hcommand, Command.OnlyLooks]))

theorem clean_generate (tree : FileTree) (input : String) (output file : Option String) (dryRun : Bool)
    (config : Option String) : (Command.runOn tree (.generate input output file dryRun config)).Clean := by
  rcases finds_or_fails tree input output file dryRun config with ⟨merged, routes, hfinds⟩ | ⟨stdout, e, hrun⟩
  · cases dryRun with
    | true =>
        refine .of_after_eq ?_ (.inl rfl)
        simp only [Command.runOn, Command.run, runGenerate_dryRun hfinds]
    | false =>
        obtain ⟨result, tree', hwriting, hrun⟩ := runGenerate_writing hfinds
        rcases hwriting.onlyWrites_or_sameFiles with ⟨written, rfl, hwrites⟩ | ⟨e, rfl, hsame⟩
        · refine ⟨?_, nofun, ?_, nofun⟩
          · intro hfails
            exact absurd (by simp [Command.runOn, Command.run, hrun, Outcome.exitCode]) hfails
          · rintro _ _ _ _ ⟨⟩ -
            exact ⟨merged, routes, hfinds, by simpa only [Command.runOn, Command.run, hrun] using hwrites⟩
        · refine ⟨?_, nofun, ?_, nofun⟩
          · intro _
            simpa only [Command.runOn, Command.run, hrun] using hsame
          · rintro _ _ _ _ ⟨⟩ hexit
            simp [Command.runOn, Command.run, hrun, Outcome.exitCode_eq_zero] at hexit
  · refine .of_after_eq ?_ (.inr ?_)
    · simp only [Command.runOn, Command.run, hrun]
    · simp [Command.runOn, Command.run, hrun, Outcome.exitCode_eq_zero]

theorem clean_init (tree : FileTree) (output : String) (force : Bool) :
    (Command.runOn tree (.init output force)).Clean := by
  by_cases hguard : tree.isThere output && !force
  · have hrun : runInit tree output force = (⟨"", some (.config (.alreadyExists output))⟩, tree) := if_pos hguard
    refine .of_after_eq ?_ (.inr ?_)
    · simp only [Command.runOn, Command.run, hrun]
    · simp [Command.runOn, Command.run, hrun, Outcome.exitCode_eq_zero]
  · cases hwrite : tree.write? output Config.template with
    | none =>
        have hrun : runInit tree output force = (⟨"", some .file⟩, tree) := by
          rw [runInit, if_neg hguard, hwrite]
        refine .of_after_eq ?_ (.inr ?_)
        · simp only [Command.runOn, Command.run, hrun]
        · simp [Command.runOn, Command.run, hrun, Outcome.exitCode_eq_zero]
    | some tree' =>
        have hrun : runInit tree output force =
            (⟨line ("✓ Created configuration file: " ++ output), none⟩, tree') := by
          rw [runInit, if_neg hguard, hwrite]
        obtain ⟨place, hleads, hstores⟩ := FileTree.stores_of_write? hwrite
        refine ⟨?_, nofun, nofun, ?_⟩
        · intro hfails
          exact absurd (by simp [Command.runOn, Command.run, hrun, Outcome.exitCode]) hfails
        · rintro _ _ ⟨⟩ -
          refine ⟨?_, show tree.isThere output → force by simpa using hguard⟩
          simpa only [Command.runOn, Command.run, hrun] using hstores.onlyWrites (hstores.keepsDirs.leads hleads)

/-- Every run is clean, whatever tree it finds. -/
theorem Command.clean_runOn (tree : FileTree) (command : Command) : (command.runOn tree).Clean := by
  cases command with
  | generate input output file dryRun config => exact clean_generate tree input output file dryRun config
  | init output force => exact clean_init tree output force
  | validate path input config => exact .of_after_eq rfl (.inl trivial)

/-! ### A directory of one document -/

/-- A document with one operation. -/
def itemsText : String :=
  "\x7b\"openapi\":\"3.0.3\",\"paths\":\x7b\"/items\":\x7b\"get\":\x7b\"parameters\":[" ++
    "\x7b\"name\":\"limit\",\"in\":\"query\",\"schema\":\x7b\"type\":\"integer\"\x7d\x7d]\x7d\x7d\x7d\x7d"

/-- Its route. -/
def itemsRoute : Route where
  name := "getItems"
  method := .get
  path := "/items"
  summary := none
  params := { Request.Buckets.empty with
    query := [("limit", "z.string().transform(Number).pipe(z.number().int()).optional()")] }

/-- A configuration that names the file of the module and nothing else. -/
def itemsConfigText : String := "[output]\nfile = \"items.ts\"\n"

/-- What it says. -/
def itemsConfig : Config := { Config.default with file := "items.ts" }

/-- A working directory with the document and the configuration. -/
def itemsTree : FileTree :=
  ⟨.dir [("api.json", .file itemsText), ("openapi-zod.toml", .file itemsConfigText)], []⟩

/-- The working directory with a module where the configuration says. -/
def itemsTreeWith (text : String) : FileTree :=
  ⟨.dir [("api.json", .file itemsText), ("openapi-zod.toml", .file itemsConfigText),
    ("generated", .dir [("items.ts", .file text)])], []⟩

/-- The working directory once the module of the document is written. -/
def itemsTreeAfter : FileTree := itemsTreeWith (itemsConfig.style.moduleText [itemsRoute])

theorem finds_itemsTree : Finds itemsTree "api.json" none none none itemsConfig [itemsRoute] := by
  have htext : itemsTree.read? "api.json" = some itemsText := rfl
  have hconfigText : itemsTree.read? "openapi-zod.toml" = some itemsConfigText := rfl
  have hconfig : Config.ofToml? itemsConfigText = some itemsConfig := by decide +kernel
  refine ⟨?_, routes_of_read? htext (by decide +kernel) (by decide +kernel)⟩
  rw [generateConfig, loadConfig_of_read? hconfigText hconfig]
  rfl

theorem writeModule_itemsTree (text : String) : writeModule false itemsTree "./generated/items.ts" text =
    (.ok (.written text.utf8ByteSize), itemsTreeWith text) := by
  rfl

theorem run_itemsTree : (Command.generate "api.json" none none false none).run itemsTree =
    (⟨generateReport "api.json" itemsConfig [itemsRoute] ++ writeReport "./generated/items.ts"
      (.written (itemsConfig.style.moduleText [itemsRoute]).utf8ByteSize), none⟩, itemsTreeAfter) := by
  have houtput : itemsConfig.outputPath = "./generated/items.ts" := by decide
  rw [Command.run, runGenerate_of_finds finds_itemsTree, writeRoutes, houtput, writeModule_itemsTree]
  rfl

/-! ### Sequences of runs -/

/-- The runs of commands, each on the tree that the one before it left. -/
def runs : FileTree → List Command → List Run
  | _, [] => []
  | tree, command :: rest => command.runOn tree :: runs (command.runOn tree).after rest

/-- The tree that commands leave. -/
def afterRuns (tree : FileTree) (commands : List Command) : FileTree :=
  commands.foldl (fun tree command => (command.runOn tree).after) tree

/-- The run succeeds and writes the file at the place. -/
def Run.Writes (run : Run) (place : List String) : Prop :=
  run.outcome.exitCode = 0 ∧ ¬run.command.OnlyLooks ∧
    ∃ path, run.command.target? run.before = some path ∧ run.after.Leads path place

theorem FileTree.OnlyWrites.fileAt?_eq {before after : FileTree} {path text : String} {place : List String}
    (h : before.OnlyWrites path text after) (hnot : ¬after.Leads path place) :
    after.fileAt? place = before.fileAt? place := by
  obtain ⟨written, hleads, -, -, hother⟩ := h
  refine hother place ?_
  rintro rfl
  exact hnot hleads

/-- A file that a run does not write stays as it is. -/
theorem Run.Clean.fileAt?_eq {run : Run} (h : run.Clean) {place : List String} (hnot : ¬run.Writes place) :
    run.after.fileAt? place = run.before.fileAt? place := by
  by_cases hexit : run.outcome.exitCode = 0
  · by_cases hlooks : run.command.OnlyLooks
    · rw [h.looked hlooks]
    · have hleads : ∀ path, run.command.target? run.before = some path → ¬run.after.Leads path place :=
        fun path htarget hleads => hnot ⟨hexit, hlooks, path, htarget, hleads⟩
      cases hcommand : run.command with
      | generate input output file dryRun config =>
          rw [hcommand] at hlooks hleads
          obtain rfl : dryRun = false := Bool.eq_false_iff.mpr hlooks
          obtain ⟨merged, routes, hfinds, hwrites⟩ := h.generated _ _ _ _ hcommand hexit
          exact hwrites.fileAt?_eq (hleads _ (by rw [Command.target?, hfinds.config]; rfl))
      | init output force =>
          rw [hcommand] at hleads
          exact (h.initialized _ _ hcommand hexit).1.fileAt?_eq (hleads _ rfl)
      | validate path input config =>
          rw [hcommand] at hlooks
          exact absurd trivial hlooks
  · exact h.failed hexit place

theorem clean_of_mem_runs {commands : List Command} {run : Run} (h : run ∈ runs tree commands) : run.Clean := by
  induction commands generalizing tree with
  | nil => cases h
  | cons command rest ih =>
      rcases List.mem_cons.mp h with rfl | hrest
      · exact command.clean_runOn tree
      · exact ih hrest

theorem fileAt?_afterRuns {commands : List Command} {place : List String}
    (h : ∀ run ∈ runs tree commands, ¬run.Writes place) :
    (afterRuns tree commands).fileAt? place = tree.fileAt? place := by
  induction commands generalizing tree with
  | nil => rfl
  | cons command rest ih =>
      obtain ⟨hfirst, hrest⟩ := List.forall_mem_cons.mp h
      calc (afterRuns (command.runOn tree).after rest).fileAt? place
          = (command.runOn tree).after.fileAt? place := ih hrest
        _ = tree.fileAt? place := (command.clean_runOn tree).fileAt?_eq hfirst

/-- **Every run of every sequence is clean, and a file that none of them writes keeps its text.** -/
theorem runs_clean (tree : FileTree) (commands : List Command) :
    (∀ run ∈ runs tree commands, run.Clean) ∧
      ∀ place, (∀ run ∈ runs tree commands, ¬run.Writes place) →
        (afterRuns tree commands).fileAt? place = tree.fileAt? place :=
  ⟨fun _ hrun => clean_of_mem_runs hrun, fun _ hnot => fileAt?_afterRuns hnot⟩

/-- A run that writes the module, one that finds the configuration already there, and one that finds no module
where it looks: the files that the first two read stay as they are. -/
theorem runs_clean_items :
    let commands : List Command := [.generate "api.json" none none false none, .init "openapi-zod.toml" false,
      .validate "items.ts" "api.json" none]
    (runs itemsTree commands).map (fun run => run.outcome.exitCode) = [0, 1, 2] ∧
      (∀ run ∈ runs itemsTree commands, run.Clean) ∧
      (afterRuns itemsTree commands).fileAt? ["api.json"] = some itemsText ∧
      (afterRuns itemsTree commands).fileAt? ["openapi-zod.toml"] = some itemsConfigText := by
  intro commands
  have hruns : runs itemsTree commands = [
      ⟨.generate "api.json" none none false none, itemsTree,
        ⟨generateReport "api.json" itemsConfig [itemsRoute] ++ writeReport "./generated/items.ts"
          (.written (itemsConfig.style.moduleText [itemsRoute]).utf8ByteSize), none⟩, itemsTreeAfter⟩,
      ⟨.init "openapi-zod.toml" false, itemsTreeAfter,
        ⟨"", some (.config (.alreadyExists "openapi-zod.toml"))⟩, itemsTreeAfter⟩,
      ⟨.validate "items.ts" "api.json" none, itemsTreeAfter,
        ⟨line "Validating schemas...", some (.stale (.notFound "items.ts"))⟩, itemsTreeAfter⟩] := by
    simp only [commands, runs, Command.runOn, run_itemsTree]
    rfl
  have hwrites : ∀ place, ¬itemsTreeAfter.Leads "./generated/items.ts" place →
      ∀ run ∈ runs itemsTree commands, ¬run.Writes place := by
    intro place hleads
    rw [hruns]
    simp only [List.forall_mem_cons, List.not_mem_nil, false_implies, implies_true, and_true]
    refine ⟨?_, ?_, ?_⟩
    · rintro ⟨-, -, path, htarget, hpath⟩
      rw [Command.target?, finds_itemsTree.config] at htarget
      cases htarget
      exact hleads hpath
    · rintro ⟨hexit, -⟩
      cases hexit
    · rintro ⟨hexit, -⟩
      cases hexit
  obtain ⟨hclean, hkept⟩ := runs_clean itemsTree commands
  refine ⟨by rw [hruns]; rfl, hclean, ?_, ?_⟩
  · exact hkept ["api.json"] (hwrites _ (by decide))
  · exact hkept ["openapi-zod.toml"] (hwrites _ (by decide))

end ZodRoutes.Cli
