import Gatehouse.CommandLine.Run
import Gatehouse.Proofs.Config.Setting

/-!
# Which layer decides

What the files, the environment and the options give a setting is said of each of them alone
(`inFile?`, `inEnvironment?`, `inOptions?`), and each has a law for what laying it over other
settings does: `Config.get_of_overlayFile`, `get_of_overlayEnvironment` and `get_apply`.  A file
overrides only with values that are not the default, so the laws compose to `Setting.kept`, which is
not always the value of the highest layer, `Setting.highest`.  `load_precedence` says when it is.
-/

namespace Gatehouse

open Gatehouse.CommandLine Gatehouse.Files Gatehouse.Toml

/-! ## What each layer gives -/

namespace Setting

/-- What the file that a path names gives the setting. -/
def inFile? (k : Setting) (tree : Tree) (path : String) : Option SettingValue :=
  if tree.exists? path then
    match tree.readText path with
    | .error _ => none
    | .ok text => (Toml.parse? text).bind k.inEntries?
  else none

/-- The variable that gives the setting. -/
def envName? : Setting → Option String
  | .aclDir => some aclDirVariable
  | .aclPattern => none
  | .uciDir => some uciDirVariable
  | .timeoutSecs => some timeoutVariable
  | .callTimeoutMs => some callTimeoutVariable
  | .clientPath => some clientVariable

/-- The value of the setting that a variable with this content gives. -/
def ofText? (k : Setting) (content : String) : Option SettingValue :=
  if k.isNumber then (Decimal.parseWord? (Text.trim content.toList)).map .number
  else some (.text content)

/-- The content of the variable that gives the setting. -/
def content? (k : Setting) (env : Environment) : Option String :=
  k.envName?.bind (Keyed.get? · env)

/-- What the environment gives the setting. -/
def inEnvironment? (k : Setting) (env : Environment) : Option SettingValue :=
  (k.content? env).bind k.ofText?

/-- What the options give the setting. -/
def inOptions? (k : Setting) (o : GlobalOptions) : Option SettingValue :=
  match k with
  | .aclDir => o.aclDir.map .text
  | .uciDir => o.uciDir.map .text
  | _ => none

end Setting

/-- The file that a path names can be read, if it exists. -/
def Readable (tree : Tree) (path : String) : Prop :=
  ∃ c, Config.loadFile tree path = .ok c

/-- The variables that are set have values of their settings. -/
def Environment.Valid (env : Environment) : Prop :=
  ∀ (k : Setting) content, k.content? env = some content → (k.ofText? content).isSome = true

namespace Config

variable {tree : Tree} {path : String} {env : Environment} {base c : Config}

/-- A file of settings is what it gives them, and the defaults for the others. -/
theorem loadFile_cases {l : Option Config} (h : loadFile tree path = .ok l) :
    (l = none ∧ ∀ k : Setting, k.inFile? tree path = none) ∨
      ∃ c, l = some c ∧ ∀ k, c.get k = (k.inFile? tree path).getD k.usual := by
  unfold loadFile at h
  by_cases hexists : tree.exists? path = true
  · rw [if_pos hexists] at h
    cases htext : tree.readText path with
    | error fault =>
      rw [htext] at h
      exact absurd h (by simp)
    | ok text =>
      rw [htext] at h
      cases hparse : parse? text with
      | none =>
        simp only [hparse] at h
        exact absurd h (by simp)
      | some c =>
        simp only [hparse] at h
        obtain rfl := Except.ok.inj h
        obtain ⟨t, ht, hc⟩ := Option.bind_eq_some_iff.1 hparse
        refine Or.inr ⟨c, rfl, fun k => ?_⟩
        have hfile : k.inFile? tree path = k.inEntries? t := by
          rw [Setting.inFile?, if_pos hexists, htext]
          simp only [ht, Option.bind_some]
        rw [hfile]
        exact get_of_ofEntries hc k
  · rw [if_neg hexists] at h
    refine Or.inl ⟨(Except.ok.inj h).symm, fun k => ?_⟩
    rw [Setting.inFile?, if_neg hexists]

theorem exists_overlayFile (h : Readable tree path) (base : Config) :
    ∃ c, overlayFile tree path base = .ok c := by
  obtain ⟨l, hl⟩ := h
  unfold overlayFile
  rw [hl]
  cases l with
  | none => exact ⟨base, rfl⟩
  | some c => exact ⟨base.merge c, rfl⟩

/-- A file overrides a setting with the value that it gives, unless that is the default. -/
theorem get_of_overlayFile (h : overlayFile tree path base = .ok c) (k : Setting) :
    c.get k = ((k.inFile? tree path).filter (!k.isUsual ·)).getD (base.get k) := by
  unfold overlayFile at h
  cases hload : loadFile tree path with
  | error e =>
    rw [hload] at h
    exact absurd h (by simp [bind, Except.bind])
  | ok l =>
    rw [hload] at h
    rcases loadFile_cases hload with ⟨rfl, hnone⟩ | ⟨later, rfl, hsome⟩
    · obtain rfl : base = c := Except.ok.inj h
      rw [hnone k]
      rfl
    · obtain rfl : base.merge later = c := Except.ok.inj h
      rw [get_merge, hsome k]
      cases hfile : k.inFile? tree path with
      | none => simp [Setting.isUsual]
      | some v => by_cases hv : k.isUsual v = true <;> simp [hv, Option.filter]

theorem textFrom_eq {k : Setting} {name : String} (hname : k.envName? = some name)
    (hk : k.isNumber = false) (old : String) :
    .text (textFrom env name old) = (k.inEnvironment? env).getD (.text old) := by
  unfold textFrom Setting.inEnvironment? Setting.content?
  rw [hname, Option.bind_some]
  cases Keyed.get? name env with
  | none => rfl
  | some v => simp [Setting.ofText?, hk]

theorem numberFrom_eq {k : Setting} {name : String} (hname : k.envName? = some name)
    (hk : k.isNumber = true) {old n : UInt64} (h : numberFrom env name old = .ok n) :
    .number n = (k.inEnvironment? env).getD (.number old) := by
  unfold numberFrom at h
  unfold Setting.inEnvironment? Setting.content?
  rw [hname, Option.bind_some]
  cases hget : Keyed.get? name env with
  | none =>
    rw [hget] at h
    obtain rfl := Except.ok.inj h
    rfl
  | some v =>
    simp only [hget] at h
    cases hword : Decimal.parseWord? (Text.trim v.toList) with
    | none =>
      simp only [hword] at h
      exact absurd h (by simp)
    | some m =>
      simp only [hword] at h
      obtain rfl := Except.ok.inj h
      simp [Setting.ofText?, hk, hword]

theorem exists_numberFrom {k : Setting} {name : String} (h : env.Valid)
    (hname : k.envName? = some name) (hk : k.isNumber = true) (old : UInt64) :
    ∃ n, numberFrom env name old = .ok n := by
  unfold numberFrom
  cases hget : Keyed.get? name env with
  | none => exact ⟨old, rfl⟩
  | some v =>
    have hcontent : k.content? env = some v := by
      rw [Setting.content?, hname]
      exact hget
    have hsome := h k v hcontent
    simp only [Setting.ofText?, hk, if_true, Option.isSome_map] at hsome
    obtain ⟨n, hn⟩ := Option.isSome_iff_exists.1 hsome
    exact ⟨n, by simp only [hn]⟩

theorem exists_overlayEnvironment (h : env.Valid) (base : Config) :
    ∃ c, overlayEnvironment env base = .ok c := by
  obtain ⟨timeoutSecs, ht⟩ := exists_numberFrom (k := .timeoutSecs) h rfl rfl
    base.session.timeoutSecs
  obtain ⟨callTimeoutMs, hc⟩ := exists_numberFrom (k := .callTimeoutMs) h rfl rfl
    base.session.callTimeoutMs
  unfold overlayEnvironment
  rw [ht, hc]
  exact ⟨_, rfl⟩

/-- The environment overrides a setting with the value that it gives. -/
theorem get_of_overlayEnvironment (h : overlayEnvironment env base = .ok c) (k : Setting) :
    c.get k = (k.inEnvironment? env).getD (base.get k) := by
  unfold overlayEnvironment at h
  cases ht : numberFrom env timeoutVariable base.session.timeoutSecs with
  | error e =>
    rw [ht] at h
    exact absurd h (by simp [bind, Except.bind])
  | ok timeoutSecs =>
    cases hc : numberFrom env callTimeoutVariable base.session.callTimeoutMs with
    | error e =>
      rw [ht, hc] at h
      exact absurd h (by simp [bind, Except.bind])
    | ok callTimeoutMs =>
      rw [ht, hc] at h
      obtain rfl := Except.ok.inj h
      cases k with
      | aclDir => exact textFrom_eq rfl rfl _
      | aclPattern => rfl
      | uciDir => exact textFrom_eq rfl rfl _
      | timeoutSecs => exact numberFrom_eq rfl rfl ht
      | callTimeoutMs => exact numberFrom_eq rfl rfl hc
      | clientPath => exact textFrom_eq rfl rfl _

/-- The options override a setting with the value that they give. -/
theorem get_apply (o : GlobalOptions) (base : Config) (k : Setting) :
    (o.apply base).get k = (k.inOptions? o).getD (base.get k) := by
  cases k with
  | aclDir => cases hdir : o.aclDir <;> simp [GlobalOptions.apply, Setting.inOptions?, get, hdir]
  | uciDir => cases hdir : o.uciDir <;> simp [GlobalOptions.apply, Setting.inOptions?, get, hdir]
  | _ => rfl

/-- The settings that all layers together give, layer by layer. -/
theorem exists_load {sources : ConfigSources} (hsystem : Readable tree sources.system)
    (hfile : ∀ path, sources.file = some path → Readable tree path)
    (henv : sources.environment.Valid) :
    ∃ c, load tree sources = .ok c ∧ ∀ k : Setting,
      c.get k = (k.inEnvironment? sources.environment).getD
        (((sources.file.bind (k.inFile? tree)).filter (!k.isUsual ·)).getD
          (((k.inFile? tree sources.system).filter (!k.isUsual ·)).getD k.usual)) := by
  obtain ⟨c₁, h₁⟩ := exists_overlayFile hsystem default
  unfold load
  simp only [h₁, bind, Except.bind]
  cases hpath : sources.file with
  | none =>
    obtain ⟨c, hc⟩ := exists_overlayEnvironment henv c₁
    refine ⟨c, hc, fun k => ?_⟩
    rw [get_of_overlayEnvironment hc k, get_of_overlayFile h₁ k]
    rfl
  | some path =>
    obtain ⟨c₂, h₂⟩ := exists_overlayFile (hfile path hpath) c₁
    obtain ⟨c, hc⟩ := exists_overlayEnvironment henv c₂
    simp only [h₂]
    refine ⟨c, hc, fun k => ?_⟩
    rw [get_of_overlayEnvironment hc k, get_of_overlayFile h₂ k, get_of_overlayFile h₁ k]
    rfl

end Config

/-! ## The layers together -/

/-- What the layers give one setting. -/
structure Layers where
  /-- The options. -/
  options : Option SettingValue
  /-- The environment. -/
  environment : Option SettingValue
  /-- The file that is asked for. -/
  file : Option SettingValue
  /-- The file of the system. -/
  system : Option SettingValue

namespace Setting

/-- What the layers give the setting. -/
def layers (k : Setting) (o : GlobalOptions) (tree : Tree) (sources : ConfigSources) : Layers :=
  ⟨k.inOptions? o, k.inEnvironment? sources.environment, sources.file.bind (k.inFile? tree),
    k.inFile? tree sources.system⟩

/-- The value of the highest layer that gives one. -/
def highest (k : Setting) (l : Layers) : SettingValue :=
  (l.options.or (l.environment.or (l.file.or l.system))).getD k.usual

/-- The value of the highest layer that gives one, where files do not give the default. -/
def kept (k : Setting) (l : Layers) : SettingValue :=
  (l.options.or (l.environment.or
    ((l.file.filter (!k.isUsual ·)).or (l.system.filter (!k.isUsual ·))))).getD k.usual

/-- The default in the file that is asked for stands above another value in that of the system, and
nothing stands above both. -/
def Masked (k : Setting) (l : Layers) : Prop :=
  l.options = none ∧ l.environment = none ∧ (∃ v, l.file = some v ∧ k.isUsual v = true) ∧
    ∃ w, l.system = some w ∧ k.isUsual w = false

/-- The highest layer decides, unless a default is masked. -/
theorem same_kept_highest_iff (k : Setting) (l : Layers) :
    k.same (k.kept l) (k.highest l) = true ↔ ¬k.Masked l := by
  obtain ⟨options, environment, file, system⟩ := l
  cases options with
  | some v => simp [kept, highest, Masked]
  | none =>
  cases environment with
  | some v => simp [kept, highest, Masked]
  | none =>
  cases file with
  | none =>
    cases system with
    | none => simp [kept, highest, Masked]
    | some w =>
      by_cases hw : k.isUsual w = true
      · simpa [kept, highest, Masked, Option.filter, hw] using same_comm hw
      · simp [kept, highest, Masked, Option.filter, hw]
  | some v =>
    by_cases hv : k.isUsual v = true
    · cases system with
      | none => simpa [kept, highest, Masked, Option.filter, hv] using same_comm hv
      | some w =>
        by_cases hw : k.isUsual w = true
        · simpa [kept, highest, Masked, Option.filter, hv, hw] using same_comm hv
        · -- The value of the system counts as `v` only if it counts as the default, as `v` does.
          have hne : ¬k.same w v = true := fun h => hw (same_trans h hv)
          simpa [kept, highest, Masked, Option.filter, hv, hw] using hne
    · simp [kept, highest, Masked, Option.filter, hv]

end Setting

/-- **Which layer decides.**  If the files that exist are documents of settings and the variables
that are set have values, there are settings, and each has the value of the highest layer that
gives one, exactly if no default is masked; a masked default leaves the value of the system.  A
layer that does not give a setting a value never changes it. -/
theorem load_precedence (o : GlobalOptions) (tree : Tree) (sources : ConfigSources)
    (hsystem : Readable tree sources.system)
    (hfile : ∀ path, sources.file = some path → Readable tree path)
    (henv : sources.environment.Valid) :
    (∃ c, o.apply <$> Config.load tree sources = .ok c ∧ ∀ k : Setting,
      c.get k = k.kept (k.layers o tree sources) ∧
      (k.same (c.get k) (k.highest (k.layers o tree sources)) = true ↔
        ¬k.Masked (k.layers o tree sources))) ∧
    (∀ path base c (k : Setting), Config.overlayFile tree path base = .ok c →
      k.inFile? tree path = none → c.get k = base.get k) ∧
    (∀ env base c (k : Setting), Config.overlayEnvironment env base = .ok c →
      k.inEnvironment? env = none → c.get k = base.get k) ∧
    ∀ base (k : Setting), k.inOptions? o = none → (o.apply base).get k = base.get k := by
  refine ⟨?_, ?_, ?_, ?_⟩
  · obtain ⟨c, hload, hget⟩ := Config.exists_load hsystem hfile henv
    refine ⟨o.apply c, ?_, fun k => ?_⟩
    · rw [hload]
      rfl
    have hkept : (o.apply c).get k = k.kept (k.layers o tree sources) := by
      rw [Config.get_apply, hget k]
      simp only [Setting.kept, Setting.layers, Option.getD_or]
    exact ⟨hkept, hkept ▸ k.same_kept_highest_iff (k.layers o tree sources)⟩
  · intro path base c k h hnone
    rw [Config.get_of_overlayFile h k, hnone]
    rfl
  · intro env base c k h hnone
    rw [Config.get_of_overlayEnvironment h k, hnone]
    rfl
  · intro base k hnone
    rw [Config.get_apply, hnone]
    rfl

/-- A folder with a file of the system and one that is asked for. -/
def configTree (system file : String) : Tree :=
  (Tree.empty.write "sys.toml" (.file system.toUTF8.toList)).write "user.toml"
    (.file file.toUTF8.toList)

/-- The files of that folder, without an environment. -/
def configSources : ConfigSources :=
  ⟨"sys.toml", some "user.toml", []⟩

theorem valid_configSources : configSources.environment.Valid := by
  intro k content h
  have hnone : k.content? configSources.environment = none := by cases k <;> rfl
  exact absurd (hnone.symm.trans h) (by simp)

theorem load_precedence_ninety :
    ∃ c, GlobalOptions.none.apply <$> Config.load (configTree "[session]\ntimeout_secs = 60\n"
        "[session]\ntimeout_secs = 90\n") configSources = .ok c ∧
      c.get .timeoutSecs = .number 90 := by
  have hsystem : Readable (configTree "[session]\ntimeout_secs = 60\n"
      "[session]\ntimeout_secs = 90\n") "sys.toml" :=
    ⟨some { Config.default with session := ⟨60, 500⟩ }, by decide +kernel⟩
  have hfile : ∀ path, some "user.toml" = some path → Readable (configTree
      "[session]\ntimeout_secs = 60\n" "[session]\ntimeout_secs = 90\n") path := by
    rintro path ⟨⟩
    exact ⟨some { Config.default with session := ⟨90, 500⟩ }, by decide +kernel⟩
  obtain ⟨⟨c, hc, hget⟩, -⟩ :=
    load_precedence .none _ configSources hsystem hfile valid_configSources
  refine ⟨c, hc, (hget .timeoutSecs).1.trans ?_⟩
  decide +kernel

/-- The highest layer does not always decide: here the system has 60 seconds, the file that is
asked for has the default of 3600, and 60 it is. -/
theorem not_forall_highest :
    ¬∀ (o : GlobalOptions) (tree : Tree) (sources : ConfigSources),
      Readable tree sources.system →
      (∀ path, sources.file = some path → Readable tree path) →
      sources.environment.Valid →
      ∃ c, o.apply <$> Config.load tree sources = .ok c ∧ ∀ k : Setting,
        k.same (c.get k) (k.highest (k.layers o tree sources)) = true := by
  intro h
  have hsystem : Readable (configTree "[session]\ntimeout_secs = 60\n"
      "[session]\ntimeout_secs = 3600\n") "sys.toml" :=
    ⟨some { Config.default with session := ⟨60, 500⟩ }, by decide +kernel⟩
  have hfile : ∀ path, some "user.toml" = some path → Readable (configTree
      "[session]\ntimeout_secs = 60\n" "[session]\ntimeout_secs = 3600\n") path := by
    rintro path ⟨⟩
    exact ⟨some { Config.default with session := ⟨3600, 500⟩ }, by decide +kernel⟩
  obtain ⟨c, hc, hsame⟩ := h .none _ configSources hsystem hfile valid_configSources
  have hload : GlobalOptions.none.apply <$> Config.load (configTree
      "[session]\ntimeout_secs = 60\n" "[session]\ntimeout_secs = 3600\n") configSources =
        .ok { Config.default with session := ⟨60, 500⟩ } := by
    decide +kernel
  obtain rfl := Except.ok.inj (hc.symm.trans hload)
  have htimeout := hsame .timeoutSecs
  revert htimeout
  decide +kernel

end Gatehouse
