import ElmImports.Proofs.Config.Accepted

/-!
# Values and origins come from one layer

A configuration is made of sources, each of them a layer that says of every setting it gives where that comes from.
Each setting has the value, and the origin, of the highest source that gives it: this is so of the built-in values,
and laying one more source on top keeps it so.
-/

namespace ElmImports

/-! ## Values by setting -/

def Setting.Value : Setting → Type
  | .format => OutputFormat
  | .chunkSize => Nat
  | .sourceExtension => Text
  | .nativeExtension => Text
  | .nativePrefix => Text
  | .manifest => Text
  | .sourceRoots => Bool

theorem Setting.key_inj : ∀ {s t : Setting}, s.key = t.key → s = t := by
  intro s t
  cases s <;> cases t <;> decide

def Config.value (c : Config) : (s : Setting) → s.Value
  | .format => c.format
  | .chunkSize => c.chunk
  | .sourceExtension => c.layout.sourceExtension
  | .nativeExtension => c.layout.nativeExtension
  | .nativePrefix => c.layout.nativePrefix
  | .manifest => c.manifest
  | .sourceRoots => c.sourceRoots

def Layer.value? (layer : Layer) : (s : Setting) → Option s.Value
  | .format => layer.format?
  | .chunkSize => layer.chunk?
  | .sourceExtension => layer.sourceExtension?.map Config.dropDots
  | .nativeExtension => layer.nativeExtension?.map Config.dropDots
  | .nativePrefix => layer.nativePrefix?
  | .manifest => layer.manifest?
  | .sourceRoots => layer.sourceRoots?

theorem Layer.isSome_value? (layer : Layer) (s : Setting) : (layer.value? s).isSome = layer.sets s := by
  cases s
  case sourceExtension => exact Option.isSome_map
  case nativeExtension => exact Option.isSome_map
  all_goals rfl

namespace Config

variable {c : Config} {layer : Layer}

theorem value_apply (c : Config) (layer : Layer) (origin : Setting → Origin) (s : Setting) :
    (c.apply layer origin).value s = (layer.value? s).getD (c.value s) := by
  cases s <;> rfl

theorem getElem?_foldl_insert (origin : Setting → Origin) (s : Setting) : ∀ (ss : List Setting) (origins : Origins),
    (ss.foldl (fun origins s => origins.insert s.key (origin s)) origins)[s.key]? =
      if s ∈ ss then some (origin s) else origins[s.key]?
  | [], _ => by simp
  | t :: ss, origins => by
    rw [List.foldl_cons, getElem?_foldl_insert origin s ss, Std.TreeMap.getElem?_insert]
    by_cases hs : s ∈ ss
    · simp [hs]
    · by_cases ht : s = t
      · subst ht
        simp [hs]
      · have hkey : t.key ≠ s.key := fun h => ht (Setting.key_inj h).symm
        simp [hs, ht, hkey]

theorem getElem?_origins_apply (c : Config) (layer : Layer) (origin : Setting → Origin) (s : Setting) :
    (c.apply layer origin).origins[s.key]? = if layer.sets s then some (origin s) else c.origins[s.key]? := by
  show ((Setting.all.filter layer.sets).foldl _ c.origins)[s.key]? = _
  rw [getElem?_foldl_insert]
  simp [List.mem_filter, Setting.mem_all]

/-! ## Sources -/

structure Source where
  layer : Layer
  origin : Setting → Origin

def addSource (c : Config) (source : Source) : Config :=
  c.apply source.layer source.origin

/-- The highest of the sources that give a setting gives it `value` and is its `origin`; the last is the highest. -/
def Decide (sources : List Source) (s : Setting) (value : s.Value) (origin : Origin) : Prop :=
  ∃ lower source higher, sources = lower ++ source :: higher ∧ source.layer.value? s = some value ∧
    source.origin s = origin ∧ ∀ other ∈ higher, other.layer.value? s = none

/-- Every setting has its value and its origin from one and the same source. -/
def Layered (sources : List Source) (c : Config) : Prop :=
  ∀ s, ∃ origin, c.origins[s.key]? = some origin ∧ Decide sources s (c.value s) origin

def builtInSource : Source where
  layer := {
    format? := some .json
    chunk? := some 480
    sourceExtension? := some "elm".toList
    nativeExtension? := some "js".toList
    nativePrefix? := some "Native.".toList
    manifest? := some "elm.json".toList
    sourceRoots? := some true }
  origin _ := .builtIn

theorem getElem?_origins_builtIn (s : Setting) : builtIn.origins[s.key]? = some .builtIn := by
  show (Origins.defaults (Setting.all.map Setting.key))[s.key]? = _
  unfold Origins.defaults
  rw [List.foldl_map, getElem?_foldl_insert (fun _ => .builtIn), if_pos s.mem_all]

theorem layered_builtIn : Layered [builtInSource] builtIn := by
  intro s
  refine ⟨.builtIn, getElem?_origins_builtIn s, [], builtInSource, [], rfl, ?_, rfl, nofun⟩
  cases s <;> rfl

theorem Layered.addSource {sources : List Source} (h : Layered sources c) (source : Source) :
    Layered (sources ++ [source]) (c.addSource source) := by
  intro s
  unfold Config.addSource
  rw [value_apply, getElem?_origins_apply, ← Layer.isSome_value?]
  cases hv : source.layer.value? s with
  | some value => exact ⟨source.origin s, rfl, sources, source, [], rfl, hv, rfl, nofun⟩
  | none =>
    obtain ⟨origin, horigin, lower, decider, higher, rfl, hvalue, ho, hhigher⟩ := h s
    refine ⟨origin, horigin, lower, decider, higher ++ [source], by simp, hvalue, ho, ?_⟩
    intro other hother
    rcases List.mem_append.mp hother with hother | hother
    · exact hhigher other hother
    · rw [List.mem_singleton.mp hother]
      exact hv

theorem Layered.load {sources : List Source} (h : Layered sources c) (loaded : List Path) :
    Layered sources { c with loaded } := by
  intro s
  obtain ⟨origin, horigin, hdecide⟩ := h s
  refine ⟨origin, horigin, ?_⟩
  cases s <;> exact hdecide

/-! ## What the sources are -/

end Config

def FileKind.origin : FileKind → Path → Origin
  | .user => .userFile
  | .project => .projectFile

namespace Config

def presentFiles (disk : Disk) (dir : Path) (user? : Option Path) : List (FileKind × Path) :=
  (user?.filter disk.isFile).toList.map (.user, ·) ++ (disk.nearest? projectConfigName dir).toList.map (.project, ·)

/-- What a file gives; nothing if something is wrong with it. -/
def fileSource (disk : Disk) (file : FileKind × Path) : Source where
  layer := match ((disk.read file.2).toOption.bind Utf8.decode?).bind ConfigFile.parse? with
    | some content => { content.others with format? := content.format?.bind OutputFormat.parse? }
    | none => {}
  origin _ := file.1.origin file.2

def environmentSource (env : Environment) : Source where
  layer := {
    format? := (env.value? .format).bind OutputFormat.parse?
    chunk? := (env.value? .chunkSize).bind fun given => Decimal.read? given.trim
    sourceExtension? := env.value? .sourceExtension
    nativeExtension? := env.value? .nativeExtension
    nativePrefix? := env.value? .nativePrefix
    manifest? := env.value? .manifest
    sourceRoots? := (env.value? .sourceRoots).map Environment.isOn }
  origin s := .environment s.envName

def commandLineSource (cli : Layer) : Source where
  layer := cli
  origin s := .commandLine s.flag

/-- The sources above the built-in values, the lowest first. -/
def sources (disk : Disk) (env : Environment) (dir : Path) (user? : Option Path) (cli : Layer) : List Source :=
  (presentFiles disk dir user?).map (fileSource disk) ++ [environmentSource env, commandLineSource cli]

/-- All sources laid over the built-in values, be they right or wrong. -/
def merged (disk : Disk) (env : Environment) (dir : Path) (user? : Option Path) (cli : Layer) : Config :=
  { (sources disk env dir user? cli).foldl addSource builtIn with
    loaded := (presentFiles disk dir user?).map Prod.snd }

theorem Layered.foldl_addSource : ∀ (above : List Source) {below : List Source} {c : Config}, Layered below c →
    Layered (below ++ above) (above.foldl Config.addSource c)
  | [], below, c, h => by
    rw [List.append_nil]
    exact h
  | source :: above, below, c, h => by
    rw [← List.singleton_append, ← List.append_assoc]
    exact (h.addSource source).foldl_addSource above

theorem layered_merged (disk : Disk) (env : Environment) (dir : Path) (user? : Option Path) (cli : Layer) :
    Layered (builtInSource :: sources disk env dir user? cli) (merged disk env dir user? cli) :=
  (layered_builtIn.foldl_addSource (sources disk env dir user? cli)).load _

end Config

end ElmImports
