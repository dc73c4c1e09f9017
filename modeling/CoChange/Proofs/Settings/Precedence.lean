import CoChange.CommandLine.Parser
import CoChange.Proofs.Settings.Lookup
import CoChange.Proofs.Text
import CoChange.Setup

/-!
# Where the settings of an analysis come from

A field of the settings that an analysis is run with comes from the command line, or else from the
selected section, the section of the analysis or the section `base`, or else from the defaults
(`CommandLine.Sources`). These sources decide about everything but one thing: the settings of the
file have to be sound in themselves.

* **`Settings.analysis_eq_ok_iff`**: what the file says, and when it is sound.
* **`CommandLine.analysisConfig_eq_ok_iff`**: what comes out with a command line, and when.
* **`command_line_goes_first`**: two files that differ only where the command line goes before them
  give the same settings, if both of them are sound or neither is.
* **`overridden_setting_refused`**: a file that is not sound gives none, even where the command line
  goes before it.
-/

namespace CoChange

attribute [ext] AnalysisConfig

/-- The value that has been said is understood, or else nothing has been said and it is the
default. -/
def Understood {ε α : Type} (said : Option (Except ε α)) (default value : α) : Prop :=
  said.getD (.ok default) = .ok value

theorem Understood.unique {ε α : Type} {said : Option (Except ε α)} {default a b : α}
    (ha : Understood said default a) (hb : Understood said default b) : a = b :=
  Except.ok.inj (ha.symm.trans hb)

/-- What is said first goes before the rest. -/
theorem Understood.or {ε α : Type} {first rest : Option (Except ε α)} {default base value : α}
    (hrest : Understood rest default base) :
    Understood (first.or rest) default value ↔ Understood first base value := by
  cases first with
  | none =>
    rw [Option.none_or, Understood, hrest]
    rfl
  | some x => rfl

theorem understood_ok {ε α : Type} (said : Option α) (default : α) :
    Understood (said.map (Except.ok (ε := ε))) default (said.getD default) := by
  cases said <;> rfl

variable {c : CommandLine} {s s₁ s₂ : Settings} {base config config' : AnalysisConfig}

namespace Settings

/-- What the settings say about the analysis under a key: the selected section goes before the
section of the analysis, and that before the section that all look-ups end with. -/
def said (s : Settings) (key : String) : Option String :=
  (s.selected.bind (s.sections.textAt? · key)).or
    ((s.sections.textAt? analysisSection key).or (s.sections.textAt? baseSection key))

theorem get?_analysisSection (s : Settings) (key : String) :
    s.get? analysisSection key = s.said key :=
  s.get?_eq analysisSection key

/-- A setting that is read and understood, or the default. -/
theorem read_getD_iff {ε α : Type} {parse : String → Except ε α} (wrap : ε → SettingFault)
    {key : String} {default value : α} :
    (∃ found, s.read analysisSection key (fun raw => (parse raw).mapError wrap) = .ok found ∧
      found.getD default = value) ↔ Understood ((s.said key).map parse) default value := by
  rw [read, get?_analysisSection]
  cases hsaid : s.said key with
  | none => simp [Understood]
  | some raw => cases hparse : parse raw <;> simp [Understood, hparse, Except.mapError]

end Settings

namespace CommandLine

/-- The keys of the settings of an analysis, each with whether a command line gives its value. -/
def analysisKeys : List (String × (CommandLine → Bool)) :=
  [("dsl-struct", (·.structuralQuery.isSome)), ("dsl-name", (·.nameQuery.isSome)),
    ("max-coupling-nodes", (·.maxCouplingUnits.isSome)), ("shards", (·.shards.isSome)),
    ("chunk-size", (·.chunkSize.isSome)), ("max-memory", (·.maxMemory.isSome)),
    ("checkpoint-dir", (·.checkpointDir.isSome))]

/-- Whether a command line gives the value of a key. -/
def Gives (c : CommandLine) (key : String) : Prop := ∃ k ∈ analysisKeys, k.1 = key ∧ k.2 c = true

/-- Two settings say the same about the analysis, but for what a command line gives. -/
def SameBeside (c : CommandLine) (s₁ s₂ : Settings) : Prop :=
  ∀ key, ¬ c.Gives key → s₁.get? Settings.analysisSection key = s₂.get? Settings.analysisSection key

/-- Each field has the value that the command line gives, or else the one that the settings say, or
else the default. -/
structure Sources (c : CommandLine) (s : Settings) (config : AnalysisConfig) : Prop where
  structuralQuery : config.structuralQuery =
    (c.structuralQuery.or (s.said "dsl-struct")).getD AnalysisConfig.defaults.structuralQuery
  nameQuery : config.nameQuery =
    (c.nameQuery.or (s.said "dsl-name")).getD AnalysisConfig.defaults.nameQuery
  maxCouplingUnits : Understood
    ((c.maxCouplingUnits.map .ok).or ((s.said "max-coupling-nodes").map Text.parseNumber))
    AnalysisConfig.defaults.maxCouplingUnits config.maxCouplingUnits
  shards : Understood ((c.shards.map .ok).or ((s.said "shards").map Text.parseNumber))
    AnalysisConfig.defaults.shards config.shards
  chunkSize : Understood ((c.chunkSize.map .ok).or ((s.said "chunk-size").map Text.parseNumber))
    AnalysisConfig.defaults.chunkSize config.chunkSize
  maxMemoryBytes : Understood
    ((c.maxMemory.map ByteSize.parse).or ((s.said "max-memory").map ByteSize.parse))
    AnalysisConfig.defaults.maxMemoryBytes config.maxMemoryBytes
  checkpointDir : config.checkpointDir =
    (c.checkpointDir.or (s.said "checkpoint-dir")).or AnalysisConfig.defaults.checkpointDir

/-- The sources tell all fields, so there is one result at most. -/
theorem Sources.unique (h : c.Sources s config) (h' : c.Sources s config') : config = config' :=
  AnalysisConfig.ext (h.structuralQuery.trans h'.structuralQuery.symm)
    (h.nameQuery.trans h'.nameQuery.symm)
    (h.maxCouplingUnits.unique h'.maxCouplingUnits)
      (h.shards.unique h'.shards) (h.chunkSize.unique h'.chunkSize)
    (h.maxMemoryBytes.unique h'.maxMemoryBytes) (h.checkpointDir.trans h'.checkpointDir.symm)

end CommandLine

/-! ## What the file says -/

namespace Settings

/-- The settings of a file are those that a command line without flags has sources for. -/
theorem analysisFields_eq_ok_iff : s.analysisFields = .ok base ↔
    CommandLine.defaults.Sources s base := by
  simp only [analysisFields, get?_analysisSection, bind_eq_ok_iff]
  constructor
  · rintro ⟨memory, hmemory, couplings, hcouplings, shards, hshards, chunk, hchunk, hbase⟩
    obtain rfl := Except.ok.inj hbase
    exact {
      structuralQuery := rfl
      nameQuery := rfl
      maxCouplingUnits := (read_getD_iff _).mp ⟨couplings, hcouplings, rfl⟩
      shards := (read_getD_iff _).mp ⟨shards, hshards, rfl⟩
      chunkSize := (read_getD_iff _).mp ⟨chunk, hchunk, rfl⟩
      maxMemoryBytes := (read_getD_iff _).mp ⟨memory, hmemory, rfl⟩
      checkpointDir := rfl }
  · intro h
    obtain ⟨memory, hmemory, hmemory'⟩ := (read_getD_iff .memory).mpr h.maxMemoryBytes
    obtain ⟨couplings, hcouplings, hcouplings'⟩ := (read_getD_iff .number).mpr h.maxCouplingUnits
    obtain ⟨shards, hshards, hshards'⟩ := (read_getD_iff .number).mpr h.shards
    obtain ⟨chunk, hchunk, hchunk'⟩ := (read_getD_iff .number).mpr h.chunkSize
    refine ⟨memory, hmemory, couplings, hcouplings, shards, hshards, chunk, hchunk, ?_⟩
    exact congrArg Except.ok
      (AnalysisConfig.ext h.structuralQuery.symm h.nameQuery.symm hcouplings' hshards' hchunk'
      hmemory' h.checkpointDir.symm)

/-- **The settings of a file on their own are what it says, if that is sound.** A command line that
says nothing has the file and the defaults as its only sources. -/
theorem analysis_eq_ok_iff :
    s.analysis = .ok base ↔ CommandLine.defaults.Sources s base ∧ base.validate = .ok () := by
  simp only [analysis, bind_eq_ok_iff, mapError_eq_ok_iff, analysisFields_eq_ok_iff]
  constructor
  · rintro ⟨_, hsources, ⟨⟩, hvalid, hbase⟩
    obtain rfl := Except.ok.inj hbase
    exact ⟨hsources, hvalid⟩
  · rintro ⟨hsources, hvalid⟩
    exact ⟨base, hsources, (), hvalid, rfl⟩

end Settings

/-! ## What comes out with a command line -/

namespace CommandLine

/-- The memory that an analysis may use, if the settings of the file are known. -/
def memoryOver (c : CommandLine) (base : AnalysisConfig) : Except AnalysisSetupError Nat :=
  match c.maxMemory with
  | some size => (ByteSize.parse size).mapError (.memory size)
  | none => .ok base.maxMemoryBytes

/-- The settings of the file, where the command line does not go before them. -/
def onTop (c : CommandLine) (base : AnalysisConfig) (memory : Nat) : AnalysisConfig where
  structuralQuery := c.structuralQuery.getD base.structuralQuery
  nameQuery := c.nameQuery.getD base.nameQuery
  maxCouplingUnits := c.maxCouplingUnits.getD base.maxCouplingUnits
  shards := c.shards.getD base.shards
  chunkSize := c.chunkSize.getD base.chunkSize
  maxMemoryBytes := memory
  checkpointDir := c.checkpointDir.or base.checkpointDir

/-- The settings for a run are made in three steps: the file is read and checked on its own, flags
are put over it, and the result is checked again. -/
theorem analysisConfig_eq (c : CommandLine) (s : Settings) :
    c.analysisConfig s = (do
      let base ← s.analysis.mapError .settings
      let memory ← c.memoryOver base
      (c.onTop base memory).validate.mapError .refused
      return c.onTop base memory) := by
  unfold analysisConfig memoryOver
  cases c.maxMemory <;> rfl

/-- The budget is what the command line says, if that is a size, and else what the file says. -/
theorem memoryOver_eq_ok_iff {memory : Nat} :
    c.memoryOver base = .ok memory ↔
    Understood (c.maxMemory.map ByteSize.parse) base.maxMemoryBytes memory := by
  rw [memoryOver]
  cases c.maxMemory with
  | none => simp [Understood]
  | some size => exact mapError_eq_ok_iff

/-- What the command line gives goes before what the file says on its own. -/
theorem Sources.onTop {memory : Nat} (hbase : defaults.Sources s base)
    (hmemory : Understood (c.maxMemory.map ByteSize.parse) base.maxMemoryBytes memory) :
    c.Sources s (c.onTop base memory) where
  structuralQuery := by
    rw [CommandLine.onTop, hbase.structuralQuery]
    cases c.structuralQuery <;> rfl
  nameQuery := by
    rw [CommandLine.onTop, hbase.nameQuery]
    cases c.nameQuery <;> rfl
  maxCouplingUnits := hbase.maxCouplingUnits.or.mpr (understood_ok _ _)
  shards := hbase.shards.or.mpr (understood_ok _ _)
  chunkSize := hbase.chunkSize.or.mpr (understood_ok _ _)
  maxMemoryBytes := hbase.maxMemoryBytes.or.mpr hmemory
  checkpointDir := by
    rw [CommandLine.onTop, hbase.checkpointDir]
    cases c.checkpointDir <;> rfl

/-- **What an analysis is run with** comes from its sources and is sound, and the settings of the
file are sound on their own. -/
theorem analysisConfig_eq_ok_iff :
    c.analysisConfig s = .ok config ↔
      (∃ base, s.analysis = .ok base) ∧ c.Sources s config ∧ config.validate = .ok () := by
  simp only [analysisConfig_eq, bind_eq_ok_iff, mapError_eq_ok_iff, memoryOver_eq_ok_iff]
  constructor
  · rintro ⟨base, hbase, memory, hmemory, ⟨⟩, hvalid, hconfig⟩
    obtain rfl := Except.ok.inj hconfig
    exact ⟨⟨base, hbase⟩, (Settings.analysis_eq_ok_iff.mp hbase).1.onTop hmemory, hvalid⟩
  · rintro ⟨⟨base, hbase⟩, hsources, hvalid⟩
    have hown := (Settings.analysis_eq_ok_iff.mp hbase).1
    have hmemory := hown.maxMemoryBytes.or.mp hsources.maxMemoryBytes
    -- the sources leave one way only to fill in the fields
    have hconfig := (hown.onTop hmemory).unique hsources
    exact ⟨base, hbase, config.maxMemoryBytes,
      hmemory, (), hconfig.symm ▸ hvalid, congrArg Except.ok hconfig⟩

/-! ## Two files -/

/-- What a file says does not matter where something goes before it, or where the other file says
the same. -/
theorem SameBeside.or_said {α : Type} {key : String} {given : Option α} (h : c.SameBeside s₁ s₂)
    (hgiven : given = none → ¬ c.Gives key) (understand : Option String → Option α) :
    given.or (understand (s₁.said key)) = given.or (understand (s₂.said key)) := by
  cases given with
  | none => rw [← s₁.get?_analysisSection, h key (hgiven rfl), s₂.get?_analysisSection]
  | some a => rfl

theorem SameBeside.symm (h : c.SameBeside s₁ s₂) : c.SameBeside s₂ s₁ :=
  fun key hkey => (h key hkey).symm

/-- Settings with sources in one file have the same sources in another that says the same wherever
the command line says nothing. -/
theorem Sources.of_sameBeside (h : c.SameBeside s₁ s₂) (hsources : c.Sources s₁ config) :
    c.Sources s₂ config where
  structuralQuery := by
    rw [← h.or_said (by simp [Gives, analysisKeys]) fun text => text]
    exact hsources.structuralQuery
  nameQuery := by
    rw [← h.or_said (by simp [Gives, analysisKeys]) fun text => text]
    exact hsources.nameQuery
  maxCouplingUnits := by
    rw [← h.or_said (by simp [Gives, analysisKeys]) (.map Text.parseNumber)]
    exact hsources.maxCouplingUnits
  shards := by
    rw [← h.or_said (by simp [Gives, analysisKeys]) (.map Text.parseNumber)]
    exact hsources.shards
  chunkSize := by
    rw [← h.or_said (by simp [Gives, analysisKeys]) (.map Text.parseNumber)]
    exact hsources.chunkSize
  maxMemoryBytes := by
    rw [← h.or_said (by simp [Gives, analysisKeys]) (.map ByteSize.parse)]
    exact hsources.maxMemoryBytes
  checkpointDir := by
    rw [← h.or_said (by simp [Gives, analysisKeys]) fun text => text]
    exact hsources.checkpointDir

theorem SameBeside.sources_iff (h : c.SameBeside s₁ s₂) : c.Sources s₁ config ↔
    c.Sources s₂ config :=
  ⟨.of_sameBeside h, .of_sameBeside h.symm⟩

end CommandLine

/-- **The command line goes before the file.** Two files that say the same wherever the command line
gives nothing lead to the same settings or both to none, if each of them is sound on its own or
neither is; and the settings that come out are sound, and each is the one that the command line
gives, or else the file, or else the default. -/
theorem command_line_goes_first (c : CommandLine) :
    (∀ s₁ s₂, c.SameBeside s₁ s₂ →
      ((∃ base, s₁.analysis = .ok base) ↔ ∃ base, s₂.analysis = .ok base) →
      ∀ config, c.analysisConfig s₁ = .ok config ↔ c.analysisConfig s₂ = .ok config) ∧
    ∀ s config, c.analysisConfig s = .ok config →
      config.validate = .ok () ∧ c.Sources s config := by
  refine ⟨fun s₁ s₂ hsame hsound config => ?_, fun s config h => ?_⟩
  · rw [CommandLine.analysisConfig_eq_ok_iff, CommandLine.analysisConfig_eq_ok_iff, hsound,
      hsame.sources_iff]
  · obtain ⟨-, hsources, hvalid⟩ := CommandLine.analysisConfig_eq_ok_iff.mp h
    exact ⟨hvalid, hsources⟩

namespace Sample

/-- Settings that say how many shards there are, and nothing else. -/
def sharded (text : String) : Settings :=
  .ofSections ((∅ : Sections).insert
    Settings.analysisSection ((∅ : SortedMap String String).insert "shards" text))

/-- A command line that gives the number of shards. -/
def eightShards : CommandLine := { CommandLine.defaults with shards := some 8 }

theorem gives_shards : eightShards.Gives "shards" :=
  ⟨("shards", (·.shards.isSome)), by simp [CommandLine.analysisKeys], rfl, rfl⟩

/-- The sample settings say nothing but the number of shards. -/
theorem get?_sharded (text : String) {name key : String}
    (h : (name, key) ≠ (Settings.analysisSection, "shards")) :
    (sharded text).get? name key = none := by
  have hentry {name : String} (h : (name, key) ≠ (Settings.analysisSection, "shards")) :
      (sharded text).sections.textAt? name key = none := by
    by_cases hname : name = Settings.analysisSection
    · subst hname
      have hkey : key ≠ "shards" := fun hkey => h (by rw [hkey])
      simp [Sections.textAt?, sharded, Settings.ofSections, SortedMap.get?_insert, hkey]
    · simp [Sections.textAt?, sharded, Settings.ofSections, SortedMap.get?_insert, hname]
  rw [Settings.get?_eq, hentry h, hentry (by simp [Settings.baseSection, Settings.analysisSection])]
  rfl

/-- Files that say different numbers of shards say the same beside a command line that gives the
number. -/
theorem sameBeside_sharded (text text' : String) :
    eightShards.SameBeside (sharded text) (sharded text') := by
  intro key hkey
  have hplace : (Settings.analysisSection, key) ≠ (Settings.analysisSection, "shards") := by
    rintro ⟨⟩
    exact hkey gives_shards
  rw [get?_sharded text hplace, get?_sharded text' hplace]

end Sample

/-- A command line asks for eight shards, over files that ask for two and for four: the settings are
the same. -/
theorem command_line_goes_first_sample :
    Sample.eightShards.SameBeside (Sample.sharded "2") (Sample.sharded "4") ∧
    Sample.eightShards.analysisConfig (Sample.sharded "2") =
      .ok { AnalysisConfig.defaults with shards := 8 } ∧
    Sample.eightShards.analysisConfig (Sample.sharded "4") =
      .ok { AnalysisConfig.defaults with shards := 8 } ∧
    Sample.eightShards.Sources (Sample.sharded "4")
      { AnalysisConfig.defaults with shards := 8 } := by
  have hsame := Sample.sameBeside_sharded "2" "4"
  have htwo : (Sample.sharded "2").analysis = .ok { AnalysisConfig.defaults with shards := 2 } := by
    decide +kernel
  have hfour : (Sample.sharded "4").analysis =
      .ok { AnalysisConfig.defaults with shards := 4 } := by decide +kernel
  have hconfig : Sample.eightShards.analysisConfig (Sample.sharded "2") =
      .ok { AnalysisConfig.defaults with shards := 8 } := by decide +kernel
  have hconfig' := ((command_line_goes_first Sample.eightShards).1 _ _ hsame
    ⟨fun _ => ⟨_, hfour⟩, fun _ => ⟨_, htwo⟩⟩ _).mp hconfig
  exact ⟨hsame, hconfig, hconfig', ((command_line_goes_first Sample.eightShards).2 _ _ hconfig').2⟩

/-- **What the command line goes before still has to be sound.** The command line gives the number
of shards, and two files differ in nothing else; but with the one that asks for no shards there is
no analysis. -/
theorem overridden_setting_refused :
    CommandLine.parse ["--shards", "8"] = .ok Sample.eightShards ∧
    Sample.eightShards.Gives "shards" ∧
    (∀ name key, (name, key) ≠ (Settings.analysisSection, "shards") →
      (Sample.sharded "1").get? name key = (Sample.sharded "0").get? name key) ∧
    Sample.eightShards.analysisConfig (Sample.sharded "1") =
      .ok { AnalysisConfig.defaults with shards := 8 } ∧
    Sample.eightShards.analysisConfig (Sample.sharded "0") =
      .error (.settings (.refused .noShards)) :=
  ⟨by decide +kernel, Sample.gives_shards,
    fun _ _ h => (Sample.get?_sharded "1" h).trans (Sample.get?_sharded "0" h).symm,
    by decide +kernel,
    by decide +kernel⟩

end CoChange
