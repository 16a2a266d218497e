/-
`generate` and `validate` agree.

Both commands make the text of a module from what two paths show, the input and the configuration, and nothing
else that they are given gets into the text: output options only say where it is written.  So as long as the two
paths show the same, the text is the same, and all that is left to see is that a run of `generate` does not
change what they show.

It may do so in two ways.  It writes over one of the two files, or a configuration that was not there, which
stands for the defaults, is there once the directories of the module are made.  Neither happens where the module
is written to neither path and the configuration path leads to something afterwards only if it did before.
-/
import ZodRoutes.Proofs.Cli.Run

namespace ZodRoutes.Cli

open Document (Route)

variable {tree tree' after : FileTree} {input path other text written : String}
  {output file config : Option String} {place : List String} {merged : Config} {routes : List Route}

/-! ### What paths show -/

namespace FileTree

/-- The path shows the same in both trees: a file with the same text, a directory, or nothing. -/
structure SameAt (tree : FileTree) (path : String) (tree' : FileTree) : Prop where
  isThere : tree'.isThere path = tree.isThere path
  read? : tree'.read? path = tree.read? path

/-- Both paths lead to one place. -/
def Meet (tree : FileTree) (path other : String) : Prop :=
  ∃ place, tree.Leads path place ∧ tree.Leads other place

/-- The trees show the same but for one place. -/
structure SameBut (tree : FileTree) (place : List String) (tree' : FileTree) : Prop where
  work : tree'.work = tree.work
  elsewhere : ∀ other, other ≠ place → tree'.shown? other = tree.shown? other

theorem not_dir_of_fileAt? (h : tree.fileAt? place = some text) : tree.shown? place ≠ some .dir := by
  rw [fileAt?_eq_some.mp h]
  exact nofun

theorem SameAt.refl (tree : FileTree) (path : String) : tree.SameAt path tree := ⟨rfl, rfl⟩

theorem Leads.isThere (h : tree.Leads path place) : tree.isThere path = (tree.shown? place).isSome := by
  unfold Leads at h
  rw [FileTree.isThere, entry?, h, shown?_eq, Option.isSome_map]

theorem Leads.read? (h : tree.Leads path place) : tree.read? path = tree.fileAt? place := by
  unfold Leads at h
  simp only [FileTree.read?, entry?, h]
  rfl

theorem sameAt_of_leads (h : tree.Leads path place) (h' : tree'.Leads path place)
    (hshown : tree'.shown? place = tree.shown? place) : tree.SameAt path tree' := by
  refine ⟨?_, ?_⟩
  · rw [h.isThere, h'.isThere, hshown]
  · rw [h.read?, h'.read?, fileAt?_eq_of_shown (.inl hshown)]

theorem read?_of_not_isThere (h : tree.isThere path = false) : tree.read? path = none := by
  rw [FileTree.isThere, Option.isSome_eq_false_iff, Option.isNone_iff_eq_none] at h
  rw [FileTree.read?, h]

theorem sameAt_of_not_isThere (h : tree.isThere path = false) (h' : tree'.isThere path = false) :
    tree.SameAt path tree' :=
  ⟨h'.trans h.symm, (read?_of_not_isThere h').trans (read?_of_not_isThere h).symm⟩

/-- Where no directory comes or goes, paths to other places show the same. -/
theorem SameBut.sameAt (h : tree.SameBut place tree') (hfile : tree.shown? place ≠ some .dir)
    (hfile' : tree'.shown? place ≠ some .dir) (hnot : ¬tree.Leads path place) : tree.SameAt path tree' := by
  have hkeeps : tree.KeepsDirs tree' := by
    refine ⟨h.work, fun other hdir => ?_⟩
    have hne : other ≠ place := fun heq => hfile (heq ▸ hdir)
    rw [h.elsewhere other hne, hdir]
  have hkeeps' : tree'.KeepsDirs tree := by
    refine ⟨h.work.symm, fun other hdir => ?_⟩
    have hne : other ≠ place := fun heq => hfile' (heq ▸ hdir)
    rw [← h.elsewhere other hne, hdir]
  by_cases hleads : ∃ found, tree.Leads path found
  · obtain ⟨found, hleads⟩ := hleads
    have hne : found ≠ place := fun heq => hnot (heq ▸ hleads)
    exact sameAt_of_leads hleads (hkeeps.leads hleads) (h.elsewhere found hne)
  · have hnowhere : ∀ {tree'' : FileTree}, tree''.KeepsDirs tree → tree''.isThere path = false := by
      intro tree'' hkeeps
      rw [Bool.eq_false_iff, Ne, isThere_iff]
      rintro ⟨found, hfound, -⟩
      exact hleads ⟨found, hkeeps.leads hfound⟩
    exact sameAt_of_not_isThere (hnowhere ⟨rfl, fun _ h => h⟩) (hnowhere hkeeps')

end FileTree

/-- Writing a module does not change what a path to something else shows. -/
theorem Writing.sameAt {result : Except WriteError Written} (h : Writing tree path text result after)
    (hthere : tree.isThere other) (hmeet : ¬after.Meet path other) : tree.SameAt other after := by
  obtain ⟨place, hleads, hshown⟩ := FileTree.isThere_iff.mp hthere
  have hkept : ∀ tree' : FileTree, tree'.Leads other place →
      (tree'.shown? place = tree.shown? place ∨ (tree.shown? place = none ∧ tree'.shown? place = some .dir)) →
      tree.SameAt other tree' := by
    intro tree' hleads' hcase
    exact FileTree.sameAt_of_leads hleads hleads' (hcase.resolve_right fun hnew => hshown hnew.1)
  cases h with
  | unchanged held => exact .refl tree other
  | @written written _ hpath hstores =>
      have hleads' := hstores.keepsDirs.leads hleads
      have hne : place ≠ written := fun heq => hmeet ⟨written, hpath, heq ▸ hleads'⟩
      exact hkept after hleads' (hstores.elsewhere place hne)
  | failed hextended => exact hkept after (hextended.keepsDirs.leads hleads) (hextended.shown place)

/-! ### What the text of a module depends on -/

theorem loadConfig_congr (h : tree.SameAt (config.getD configFile) tree') :
    loadConfig tree' config = loadConfig tree config := by
  unfold loadConfig
  simp only [h.isThere, h.read?]

theorem loadDocument_congr (h : tree.SameAt input tree') : loadDocument tree' input = loadDocument tree input := by
  unfold loadDocument
  rw [h.isThere, h.read?]

theorem isThere_of_loadDocument {document : Json.Value} (h : loadDocument tree input = .ok document) :
    tree.isThere input := by
  unfold loadDocument at h
  split at h
  · assumption
  · cases h

/-- What is found depends on the input and the configuration only. -/
theorem Finds.congr (h : Finds tree input output file config merged routes) (hinput : tree.SameAt input tree')
    (hconfig : tree.SameAt (config.getD configFile) tree') :
    Finds tree' input output file config merged routes := by
  obtain ⟨hfound, document, hdocument, hroutes⟩ := h
  refine ⟨?_, document, (loadDocument_congr hinput).trans hdocument, hroutes⟩
  rw [← hfound, generateConfig, generateConfig, loadConfig_congr hconfig]

/-- Output options say where a module is written, not how it looks. -/
theorem Config.style_override_output (loaded : Config) (output file : Option String) :
    (loaded.override { Overrides.none with dir := output, file := file }).style = loaded.style := rfl

/-- **The text to compare with is the one that is written.** -/
theorem Finds.generatedText (h : Finds tree input output file config merged routes) :
    generatedText tree input config = .ok (merged.style.moduleText routes) := by
  obtain ⟨hconfig, document, hdocument, hroutes⟩ := h
  unfold generateConfig at hconfig
  cases hloaded : loadConfig tree config with
  | error e =>
      rw [hloaded] at hconfig
      cases hconfig
  | ok loaded =>
      rw [hloaded] at hconfig
      obtain rfl := Except.ok.inj hconfig
      unfold Cli.generatedText generateModule
      simp only [hloaded, hdocument, hroutes, Except.map, Config.style_override_output]

/-! ### Comparing -/

theorem exitCode_runValidate (hread : tree.read? path = some written)
    (hgenerated : generatedText tree input config = .ok text) :
    (runValidate tree path input config).exitCode = if Text.trim written = Text.trim text then 0 else 2 := by
  unfold runValidate writtenModule
  rw [if_pos (FileTree.isThere_of_read? hread), hread]
  simp only [hgenerated, beq_iff_eq]
  split <;> rfl

theorem exitCode_runValidate_of_not_isThere (h : tree.isThere path = false) :
    (runValidate tree path input config).exitCode = 2 := by
  unfold runValidate writtenModule
  rw [if_neg (by simp [h])]
  rfl

/-! ### Agreement -/

/-- A run of `generate` from the first tree to the second has stored the module at the place. -/
structure Delivers (tree after : FileTree) (input : String) (output file config : Option String) (merged : Config)
    (routes : List Route) (place : List String) : Prop where
  found : Finds tree input output file config merged routes
  leads : after.Leads merged.outputPath place
  stored : after.fileAt? place = some (merged.style.moduleText routes)
  /-- A dry run before it shows the text that is stored. -/
  foreseen : (Command.generate input output file true config).run tree =
    (⟨generateReport input merged routes ++
      writeReport merged.outputPath (.preview (merged.style.moduleText routes)), none⟩, tree)
  /-- Without the file, nothing is up to date. -/
  removed : ∀ tree' path, after.SameBut place tree' → tree'.shown? place = none → tree'.Leads path place →
    ((Command.validate path input config).run tree').1.exitCode = 2

/-- The commands with the same input and configuration agree on the module at the place. -/
structure Agrees (after : FileTree) (input : String) (output file config : Option String) (merged : Config)
    (routes : List Route) (place : List String) : Prop where
  /-- The module is up to date. -/
  validated : ∀ path, after.Leads path place → ((Command.validate path input config).run after).1.exitCode = 0
  kept : writeModule false after merged.outputPath (merged.style.moduleText routes) = (.ok .unchanged, after)
  /-- The same run again only says that the module is up to date. -/
  repeated : (Command.generate input output file false config).run after =
    (⟨generateReport input merged routes ++ writeReport merged.outputPath .unchanged, none⟩, after)
  /-- A dry run shows the text that is stored. -/
  previewed : (Command.generate input output file true config).run after =
    (⟨generateReport input merged routes ++
      writeReport merged.outputPath (.preview (merged.style.moduleText routes)), none⟩, after)
  /-- Another text in its place is up to date when it is the same but for blanks around it. -/
  edited : ∀ tree' written path, after.SameBut place tree' → tree'.fileAt? place = some written →
    tree'.Leads path place → ((Command.validate path input config).run tree').1.exitCode =
      if Text.trim written = Text.trim (merged.style.moduleText routes) then 0 else 2

/-- What is found before a run is found after it. -/
theorem Finds.afterwards (h : Finds tree input output file config merged routes) {result : Except WriteError Written}
    (hwriting : Writing tree merged.outputPath (merged.style.moduleText routes) result after)
    (hinput : ¬after.Meet merged.outputPath input)
    (hconfig : ¬after.Meet merged.outputPath (config.getD configFile))
    (hnew : after.isThere (config.getD configFile) → tree.isThere (config.getD configFile)) :
    Finds after input output file config merged routes := by
  obtain ⟨document, hdocument, -⟩ := h.routes
  refine h.congr (hwriting.sameAt (isThere_of_loadDocument hdocument) hinput) ?_
  by_cases hthere : tree.isThere (config.getD configFile)
  · exact hwriting.sameAt hthere hconfig
  · exact FileTree.sameAt_of_not_isThere (Bool.eq_false_iff.mpr hthere)
      (Bool.eq_false_iff.mpr fun hafter => hthere (hnew hafter))

/-- What is found in a tree is found where only a file changes that is neither of the two that are read. -/
theorem Finds.sameBut (h : Finds tree input output file config merged routes) (hsame : tree.SameBut place tree')
    (hfile : tree.shown? place ≠ some .dir) (hfile' : tree'.shown? place ≠ some .dir)
    (hinput : ¬tree.Leads input place) (hconfig : ¬tree.Leads (config.getD configFile) place) :
    Finds tree' input output file config merged routes :=
  h.congr (hsame.sameAt hfile hfile' hinput) (hsame.sameAt hfile hfile' hconfig)

/-- A module that is stored already is not written again. -/
theorem runGenerate_kept (h : Finds tree input output file config merged routes)
    (hread : tree.read? merged.outputPath = some (merged.style.moduleText routes)) :
    writeModule false tree merged.outputPath (merged.style.moduleText routes) = (.ok .unchanged, tree) ∧
      runGenerate tree input output file false config =
        (⟨generateReport input merged routes ++ writeReport merged.outputPath .unchanged, none⟩, tree) := by
  have hkept : writeModule false tree merged.outputPath (merged.style.moduleText routes) =
      (.ok .unchanged, tree) := by
    unfold writeModule
    rw [if_neg Bool.false_ne_true, if_pos (by simpa using hread)]
  refine ⟨hkept, ?_⟩
  rw [runGenerate_of_finds h, writeRoutes, hkept]
  rfl

/-- A run that succeeds has found what it reads, and its tree is the one that the module is written to. -/
theorem writing_of_runGenerate {outcome : Outcome}
    (hrun : runGenerate tree input output file false config = (outcome, after)) (hexit : outcome.exitCode = 0) :
    ∃ merged routes written, Finds tree input output file config merged routes ∧
      Writing tree merged.outputPath (merged.style.moduleText routes) (.ok written) after := by
  rw [Outcome.exitCode_eq_zero] at hexit
  rcases finds_or_fails tree input output file false config with ⟨merged, routes, hfinds⟩ | ⟨stdout, e, hfails⟩
  · obtain ⟨result, tree', hwriting, hgenerated⟩ := runGenerate_writing hfinds
    obtain ⟨houtcome, rfl⟩ := Prod.mk.inj (hrun.symm.trans hgenerated)
    cases result with
    | ok written => exact ⟨merged, routes, written, hfinds, hwriting⟩
    | error e =>
        rw [houtcome] at hexit
        cases hexit
  · obtain ⟨rfl, -⟩ := Prod.mk.inj (hrun.symm.trans hfails)
    cases hexit

theorem Finds.delivers (h : Finds tree input output file config merged routes)
    (hleads : after.Leads merged.outputPath place)
    (hstored : after.fileAt? place = some (merged.style.moduleText routes)) :
    Delivers tree after input output file config merged routes place := by
  refine ⟨h, hleads, hstored, runGenerate_dryRun h, ?_⟩
  intro tree' path _ hnone hpath
  exact exitCode_runValidate_of_not_isThere (by rw [hpath.isThere, hnone, Option.isSome_none])

/-- What is found where the text is stored agrees with it. -/
theorem Finds.agrees (h : Finds after input output file config merged routes)
    (hleads : after.Leads merged.outputPath place)
    (hstored : after.fileAt? place = some (merged.style.moduleText routes)) (hinput : ¬after.Leads input place)
    (hconfig : ¬after.Leads (config.getD configFile) place) :
    Agrees after input output file config merged routes place := by
  obtain ⟨hkept, hrepeated⟩ := runGenerate_kept h (hleads.read?.trans hstored)
  refine ⟨?_, hkept, hrepeated, runGenerate_dryRun h, ?_⟩
  · intro path hpath
    exact (exitCode_runValidate (hpath.read?.trans hstored) h.generatedText).trans (if_pos rfl)
  · intro tree' written path hsame hwritten hpath
    have hedited := h.sameBut hsame (FileTree.not_dir_of_fileAt? hstored) (FileTree.not_dir_of_fileAt? hwritten)
      hinput hconfig
    exact exitCode_runValidate (hpath.read?.trans hwritten) hedited.generatedText

/-- Where the configuration puts the module, no path that leads elsewhere meets it. -/
theorem Finds.not_meet (h : Finds tree input output file config merged routes)
    (hleads : after.Leads merged.outputPath place) (hpath : ¬after.Leads path place) :
    ∀ found, generateConfig tree output file config = .ok found → ¬after.Meet found.outputPath path := by
  rintro found hfound ⟨other, hother, hmeets⟩
  obtain rfl := Except.ok.inj (h.config.symm.trans hfound)
  exact hpath (hleads.unique hother ▸ hmeets)

/-- **`generate` and `validate` agree** on a module that is written to neither of the paths they read, unless
the run itself brings about the configuration that it did not find. -/
theorem generate_agrees {outcome : Outcome}
    (hrun : (Command.generate input output file false config).run tree = (outcome, after))
    (hexit : outcome.exitCode = 0)
    (hinput : ∀ merged, generateConfig tree output file config = .ok merged →
      ¬after.Meet merged.outputPath input)
    (hconfig : ∀ merged, generateConfig tree output file config = .ok merged →
      ¬after.Meet merged.outputPath (config.getD configFile)) :
    ∃ merged routes place, Delivers tree after input output file config merged routes place ∧
      ((after.isThere (config.getD configFile) → tree.isThere (config.getD configFile)) →
        Agrees after input output file config merged routes place) := by
  obtain ⟨merged, routes, written, hfinds, hwriting⟩ := writing_of_runGenerate hrun hexit
  have hinput := hinput merged hfinds.config
  have hconfig := hconfig merged hfinds.config
  rcases hwriting.onlyWrites_or_sameFiles with ⟨-, -, place, hleads, -, hstored, -⟩ | ⟨e, he, -⟩
  · refine ⟨merged, routes, place, hfinds.delivers hleads hstored, fun hnew => ?_⟩
    have hafter := hfinds.afterwards hwriting hinput hconfig hnew
    exact hafter.agrees hleads hstored (fun hmeet => hinput ⟨place, hleads, hmeet⟩)
      (fun hmeet => hconfig ⟨place, hleads, hmeet⟩)
  · cases he

/-- The commands agree on the module of a document with a route, whose file the configuration names. -/
theorem generate_agrees_items :
    ∃ place, Delivers itemsTree itemsTreeAfter "api.json" none none none itemsConfig [itemsRoute] place ∧
      Agrees itemsTreeAfter "api.json" none none none itemsConfig [itemsRoute] place := by
  have hleads : itemsTreeAfter.Leads itemsConfig.outputPath ["generated", "items.ts"] := by decide
  obtain ⟨merged, routes, place, hdelivers, hagrees⟩ := generate_agrees run_itemsTree rfl
    (finds_itemsTree.not_meet hleads (by decide)) (finds_itemsTree.not_meet hleads (by decide))
  obtain ⟨rfl, rfl⟩ := hdelivers.found.unique finds_itemsTree
  exact ⟨place, hdelivers, hagrees (by decide)⟩

/-! ### A document without operations -/

/-- The configuration that says where the schema library is imported from and nothing else. -/
def importConfig : Config :=
  { Config.default with style := { Config.default.style with zodModule := "zod/v4" } }

/-- A working directory with a document without operations and that configuration. -/
def bareTree : FileTree :=
  ⟨.dir [("api.json", .file "\x7b\"openapi\":\"3.0.3\"\x7d"),
    ("conf.toml", .file "[generator]\nzod_import = \"zod/v4\"\n")], []⟩

/-- The working directory with a module at the default path. -/
def bareTreeWith (text : String) : FileTree :=
  ⟨.dir [("api.json", .file "\x7b\"openapi\":\"3.0.3\"\x7d"),
    ("conf.toml", .file "[generator]\nzod_import = \"zod/v4\"\n"),
    ("generated", .dir [("schemas.ts", .file text)])], []⟩

/-- The working directory once the module of the document is written by default. -/
def bareTreeAfter : FileTree := bareTreeWith (Config.default.style.moduleText [])

theorem writeModule_bareTree (text : String) : writeModule false bareTree "./generated/schemas.ts" text =
    (.ok (.written text.utf8ByteSize), bareTreeWith text) := by
  rfl

theorem routes_bareTree :
    ∃ document, loadDocument bareTree "api.json" = .ok document ∧ Document.readRoutes document = .ok [] :=
  routes_of_read? rfl (by decide +kernel) (by decide +kernel)

theorem finds_bareTree {config : Option String} (h : bareTree.isThere (config.getD configFile) = false) :
    Finds bareTree "api.json" none none config .default [] := by
  refine ⟨?_, routes_bareTree⟩
  unfold generateConfig loadConfig
  rw [if_neg (by simp [h])]
  rfl

theorem run_bareTree {config : Option String} (h : bareTree.isThere (config.getD configFile) = false) :
    (Command.generate "api.json" none none false config).run bareTree =
      (⟨generateReport "api.json" .default [] ++ writeReport "./generated/schemas.ts"
        (.written (Config.default.style.moduleText []).utf8ByteSize), none⟩, bareTreeAfter) := by
  have houtput : Config.default.outputPath = "./generated/schemas.ts" := by decide
  rw [Command.run, runGenerate_of_finds (finds_bareTree h), writeRoutes, houtput,
    writeModule_bareTree]
  rfl

theorem read?_bareTreeWith (text : String) :
    (bareTreeWith text).read? "./generated/schemas.ts" = some text := rfl

theorem finds_bareTreeWith (text : String) : Finds (bareTreeWith text) "api.json" none none
    (some "generated/../conf.toml") importConfig [] := by
  have hread : (bareTreeWith text).read? "generated/../conf.toml" =
      some "[generator]\nzod_import = \"zod/v4\"\n" := rfl
  have hconfig : Config.ofToml? "[generator]\nzod_import = \"zod/v4\"\n" = some importConfig := by
    decide +kernel
  obtain ⟨document, hdocument, hroutes⟩ := routes_bareTree
  refine ⟨?_, document, (loadDocument_congr ⟨rfl, rfl⟩).trans hdocument, hroutes⟩
  rw [generateConfig, loadConfig_of_read? hread hconfig]
  rfl

theorem trim_importConfig :
    Text.trim (Config.default.style.moduleText []) ≠ Text.trim (importConfig.style.moduleText []) := by
  decide +kernel

/-- They do not where the configuration path goes through a directory that the run makes: it leads nowhere before,
so that the defaults hold, and to a configuration afterwards. -/
theorem generate_disagrees_throughOutput :
    (∃ outcome, (Command.generate "api.json" none none false (some "generated/../conf.toml")).run bareTree =
        (outcome, bareTreeAfter) ∧ outcome.exitCode = 0) ∧
      (∀ merged, generateConfig bareTree none none (some "generated/../conf.toml") = .ok merged →
        ¬bareTreeAfter.Meet merged.outputPath "api.json" ∧
          ¬bareTreeAfter.Meet merged.outputPath "generated/../conf.toml") ∧
      bareTreeAfter.Leads "./generated/schemas.ts" ["generated", "schemas.ts"] ∧
      ((Command.validate "./generated/schemas.ts" "api.json" (some "generated/../conf.toml")).run
        bareTreeAfter).1.exitCode = 2 := by
  have hbare : bareTree.isThere ((some "generated/../conf.toml").getD configFile) = false := by decide
  have hleads : bareTreeAfter.Leads "./generated/schemas.ts" ["generated", "schemas.ts"] := by decide
  refine ⟨⟨_, run_bareTree hbare, rfl⟩, ?_, hleads, ?_⟩
  · intro merged hmerged
    exact ⟨(finds_bareTree hbare).not_meet hleads (by decide) merged hmerged,
      (finds_bareTree hbare).not_meet hleads (by decide) merged hmerged⟩
  · have hvalidate := exitCode_runValidate (read?_bareTreeWith (Config.default.style.moduleText []))
      (finds_bareTreeWith (Config.default.style.moduleText [])).generatedText
    rw [if_neg trim_importConfig] at hvalidate
    rw [Command.run, bareTreeAfter, hvalidate]

end ZodRoutes.Cli
