import ElmImports.Disk.Change
import ElmImports.Proofs.Config.Layering

/-!
# Resolving a configuration

Everything that can be wrong with the sources is listed without resolving anything, in the order in which it counts.
Resolving fails with the first of these faults, and gives the configuration made of all sources if there are none.
-/

namespace ElmImports

namespace Config

/-! ## Faults -/

def formatFault? (origin : Text) (given? : Option Text) : Option ConfigError :=
  (given?.filter fun given => (OutputFormat.parse? given).isNone).map (.unknownFormat origin)

def chunkFault? (given? : Option Text) : Option ConfigError :=
  (given?.filter fun given => (Decimal.read? given.trim).isNone).map .chunkNotNumber

def fileFault? (disk : Disk) (file : FileKind × Path) : Option ConfigError :=
  match (disk.read file.2).toOption.bind Utf8.decode? with
  | none => some (.unreadableFile file.1 file.2)
  | some text => match ConfigFile.parse? text with
    | none => some (.invalidFile file.1 file.2)
    | some content => formatFault? (file.1.origin file.2).display content.format?

/-- Everything that is wrong, in the order in which it counts. -/
def faults (disk : Disk) (env : Environment) (dir : Path) (user? : Option Path) (cli : Layer) : List ConfigError :=
  (presentFiles disk dir user?).filterMap (fileFault? disk) ++
    (formatFault? (Setting.envName .format) (env.value? .format)).toList ++
    (chunkFault? (env.value? .chunkSize)).toList ++ (merged disk env dir user? cli).fault?.toList

section
variable {α : Type} {read : Text → Option α} {fault : Text → ConfigError} {given? : Option Text}

theorem filter_isNone_eq_none :
    (given?.filter fun given => (read given).isNone).map fault = none ↔ ∀ given ∈ given?, read given ≠ none := by
  simp [Option.filter_eq_none_iff]

/-- A value that is given and cannot be read is a fault. -/
theorem mapM_eq_of_read {f : Text → Except ConfigError α}
    (hf : ∀ given, f given = (read given).elim (.error (fault given)) .ok) :
    given?.mapM f = match (given?.filter fun given => (read given).isNone).map fault with
      | some e => .error e
      | none => .ok (given?.bind read) := by
  cases given? with
  | none => rfl
  | some given =>
    rw [Option.mapM_some, hf]
    cases h : read given with
    | some a =>
      simp only [Option.filter, h, Option.bind_some]
      rfl
    | none =>
      simp only [Option.filter, h]
      rfl

end

theorem mapM_formatNamed (origin : Text) (given? : Option Text) : given?.mapM (formatNamed origin) =
    match formatFault? origin given? with
    | some e => .error e
    | none => .ok (given?.bind OutputFormat.parse?) := by
  refine mapM_eq_of_read fun given => ?_
  unfold formatNamed
  cases OutputFormat.parse? given <;> rfl

theorem mapM_chunk {f : Text → Except ConfigError Nat}
    (hf : ∀ given, f given = (Decimal.read? given.trim).elim (.error (.chunkNotNumber given)) .ok)
    (given? : Option Text) :
    given?.mapM f = match chunkFault? given? with
      | some e => .error e
      | none => .ok (given?.bind fun given => Decimal.read? given.trim) :=
  mapM_eq_of_read hf

theorem fileLayer_eq (disk : Disk) (kind : FileKind) (p : Path) : fileLayer disk kind p (kind.origin p) =
    match fileFault? disk (kind, p) with
    | some e => .error e
    | none => .ok (fileSource disk (kind, p)).layer := by
  unfold fileLayer fileFault? fileSource
  cases (disk.read p).toOption.bind Utf8.decode? with
  | none => rfl
  | some text =>
    dsimp only [Option.bind_some]
    cases ConfigFile.parse? text with
    | none => rfl
    | some content =>
      dsimp only
      rw [mapM_formatNamed]
      cases formatFault? (kind.origin p).display content.format? <;> rfl

theorem applyFile_eq (c : Config) (disk : Disk) (kind : FileKind) (p : Path) : c.applyFile disk kind (some p) =
    match fileFault? disk (kind, p) with
    | some e => .error e
    | none => .ok { c.addSource (fileSource disk (kind, p)) with loaded := c.loaded ++ [p] } := by
  have hlayer := fileLayer_eq disk kind p
  unfold applyFile
  cases kind with
  | user =>
    dsimp only [FileKind.origin] at hlayer ⊢
    rw [hlayer]
    cases fileFault? disk (.user, p) <;> rfl
  | project =>
    dsimp only [FileKind.origin] at hlayer ⊢
    rw [hlayer]
    cases fileFault? disk (.project, p) <;> rfl

theorem foldl_addSource_load (loaded : List Path) : ∀ (sources : List Source) (c : Config),
    sources.foldl addSource { c with loaded } = { sources.foldl addSource c with loaded }
  | [], _ => rfl
  | source :: sources, c => foldl_addSource_load loaded sources (c.addSource source)

theorem foldlM_applyFile (disk : Disk) : ∀ (files : List (FileKind × Path)) (c : Config),
    files.foldlM (fun c file => c.applyFile disk file.1 (some file.2)) c =
      match (files.filterMap (fileFault? disk)).head? with
      | some e => .error e
      | none => .ok { (files.map (fileSource disk)).foldl addSource c with loaded := c.loaded ++ files.map Prod.snd }
  | [], c => by
    show _ = Except.ok { c with loaded := c.loaded ++ [] }
    rw [List.append_nil]
    rfl
  | file :: files, c => by
    rw [List.foldlM_cons, applyFile_eq, List.filterMap_cons]
    cases fileFault? disk file with
    | some e => rfl
    | none =>
      refine (foldlM_applyFile disk files _).trans ?_
      rw [foldl_addSource_load, List.append_assoc]
      rfl

theorem applyFile_toList (c : Config) (disk : Disk) (kind : FileKind) (file? : Option Path) :
    c.applyFile disk kind file? =
      (file?.toList.map (kind, ·)).foldlM (fun c file => c.applyFile disk file.1 (some file.2)) c := by
  cases file? with
  | none => rfl
  | some p => exact (bind_pure _).symm

theorem applyFile_present (disk : Disk) (dir : Path) (user? : Option Path) :
    (builtIn.applyFile disk .user (user?.filter disk.isFile) >>=
      fun c => c.applyFile disk .project (disk.nearest? projectConfigName dir)) =
      (presentFiles disk dir user?).foldlM (fun c file => c.applyFile disk file.1 (some file.2)) builtIn := by
  unfold presentFiles
  rw [List.foldlM_append, ← applyFile_toList]
  exact bind_congr fun c => c.applyFile_toList disk .project _

theorem environmentLayer_eq (env : Environment) : environmentLayer env =
    match (formatFault? (Setting.envName .format) (env.value? .format)).or (chunkFault? (env.value? .chunkSize)) with
    | some e => .error e
    | none => .ok (environmentSource env).layer := by
  unfold environmentLayer environmentSource
  rw [mapM_formatNamed, mapM_chunk fun given => by cases Decimal.read? given.trim <;> rfl]
  cases formatFault? (Setting.envName .format) (env.value? .format) with
  | some e => rfl
  | none => cases chunkFault? (env.value? .chunkSize) <;> rfl

theorem resolveFrom_eq (disk : Disk) (env : Environment) (dir : Path) (user? : Option Path) (cli : Layer) :
    resolveFrom disk env dir user? cli = match (faults disk env dir user? cli).head? with
      | some e => .error e
      | none => .ok (merged disk env dir user? cli) := by
  have hfiles := (applyFile_present disk dir user?).trans (foldlM_applyFile disk (presentFiles disk dir user?) builtIn)
  have hmerged : merged disk env dir user? cli =
      (Config.addSource { ((presentFiles disk dir user?).map (fileSource disk)).foldl addSource builtIn with
        loaded := builtIn.loaded ++ (presentFiles disk dir user?).map Prod.snd } (environmentSource env)).addSource
        (commandLineSource cli) := by
    unfold merged sources
    rw [List.foldl_append]
    rfl
  unfold resolveFrom
  rw [← bind_assoc, hfiles, environmentLayer_eq]
  unfold faults
  rw [List.head?_append, List.head?_append, List.head?_append]
  -- the sources are read in the order of their faults, so that the first that stops is the first of all
  cases ((presentFiles disk dir user?).filterMap (fileFault? disk)).head? with
  | some e => rfl
  | none =>
    cases formatFault? (Setting.envName .format) (env.value? .format) with
    | some e => rfl
    | none =>
      cases chunkFault? (env.value? .chunkSize) with
      | some e => rfl
      | none =>
        change (match fault? (addSource (addSource _ (environmentSource env)) (commandLineSource cli)) with
          | some e => Except.error e
          | none => Except.ok (addSource (addSource _ (environmentSource env)) (commandLineSource cli))) = _
        rw [← hmerged]
        cases (merged disk env dir user? cli).fault? <;> rfl

/-! ## What is accepted -/

/-- Every configuration file that is there can be read, and nothing that the sources say makes no sense. -/
structure Acceptable (disk : Disk) (env : Environment) (dir : Path) (user? : Option Path) (cli : Layer) : Prop where
  files : ∀ file ∈ presentFiles disk dir user?, ∃ bytes text content, disk.read file.2 = .ok bytes ∧
    Utf8.decode? bytes = some text ∧ ConfigFile.parse? text = some content ∧
      ∀ given ∈ content.format?, OutputFormat.parse? given ≠ none
  format : ∀ given ∈ env.value? .format, OutputFormat.parse? given ≠ none
  chunk : ∀ given ∈ env.value? .chunkSize, Decimal.read? given.trim ≠ none
  chunk_ne_zero : (merged disk env dir user? cli).chunk ≠ 0
  sourceExtension : (merged disk env dir user? cli).layout.sourceExtension ≠ []
  nativeExtension : (merged disk env dir user? cli).layout.nativeExtension ≠ []
  nativePrefix : (merged disk env dir user? cli).layout.nativePrefix ≠ []
  manifest : (merged disk env dir user? cli).manifest ≠ []

theorem formatFault?_eq_none {origin : Text} {given? : Option Text} :
    formatFault? origin given? = none ↔ ∀ given ∈ given?, OutputFormat.parse? given ≠ none :=
  filter_isNone_eq_none

theorem chunkFault?_eq_none {given? : Option Text} :
    chunkFault? given? = none ↔ ∀ given ∈ given?, Decimal.read? given.trim ≠ none :=
  filter_isNone_eq_none

theorem fileFault?_eq_none {disk : Disk} {file : FileKind × Path} :
    fileFault? disk file = none ↔ ∃ bytes text content, disk.read file.2 = .ok bytes ∧
      Utf8.decode? bytes = some text ∧ ConfigFile.parse? text = some content ∧
        ∀ given ∈ content.format?, OutputFormat.parse? given ≠ none := by
  unfold fileFault?
  cases hread : disk.read file.2 with
  | error cause => simp [Except.toOption]
  | ok bytes =>
    cases hdecode : Utf8.decode? bytes with
    | none => simp [Except.toOption, hdecode]
    | some text =>
      cases hparse : ConfigFile.parse? text with
      | none => simp [Except.toOption, hdecode, hparse]
      | some content =>
        simp [Except.toOption, hdecode, hparse, formatFault?_eq_none]

theorem faults_eq_nil_iff {disk : Disk} {env : Environment} {dir : Path} {user? : Option Path} {cli : Layer} :
    faults disk env dir user? cli = [] ↔ Acceptable disk env dir user? cli := by
  unfold faults
  simp only [List.append_eq_nil_iff, List.filterMap_eq_nil_iff, Option.toList_eq_nil_iff, fileFault?_eq_none,
    formatFault?_eq_none, chunkFault?_eq_none, fault?_eq_none]
  constructor
  · rintro ⟨⟨⟨hfiles, hformat⟩, hchunk⟩, hzero, hsource, hnative, hprefix, hmanifest⟩
    exact ⟨hfiles, hformat, hchunk, hzero, hsource, hnative, hprefix, hmanifest⟩
  · intro h
    exact ⟨⟨⟨h.files, h.format⟩, h.chunk⟩, h.chunk_ne_zero, h.sourceExtension, h.nativeExtension, h.nativePrefix,
      h.manifest⟩

/-! ## Resolving a configuration -/

section
variable {disk : Disk} {env : Environment} {dir : Path} {user? : Option Path} {cli : Layer}
variable {c : Config} {e : ConfigError}

theorem resolveFrom_eq_ok : resolveFrom disk env dir user? cli = .ok c ↔
    Acceptable disk env dir user? cli ∧ c = merged disk env dir user? cli := by
  rw [resolveFrom_eq, ← faults_eq_nil_iff]
  cases faults disk env dir user? cli with
  | nil => simp [eq_comm]
  | cons e faults => simp

theorem resolveFrom_eq_error :
    resolveFrom disk env dir user? cli = .error e ↔ (faults disk env dir user? cli).head? = some e := by
  rw [resolveFrom_eq]
  cases faults disk env dir user? cli with
  | nil => simp
  | cons e faults => simp

/-- Only what the command line gives comes from a flag. -/
theorem eq_commandLineSource {source : Source} {s : Setting} {flag : Text}
    (h : source ∈ builtInSource :: sources disk env dir user? cli) (horigin : source.origin s = .commandLine flag) :
    source = commandLineSource cli := by
  unfold sources at h
  simp only [List.mem_cons, List.mem_append, List.mem_map, List.not_mem_nil, or_false] at h
  rcases h with rfl | ⟨⟨kind, p⟩, -, rfl⟩ | rfl | rfl
  · cases horigin
  · cases kind <;> cases horigin
  · cases horigin
  · rfl

end

end Config

/-- What a command line gives, which can switch the source roots off and not on. -/
def Layer.commandLine (given : Layer) (noSourceRoots : Bool) : Layer :=
  { given with sourceRoots? := if noSourceRoots then some false else none }

namespace Config

theorem Layered.sourceRoots_eq_false {disk : Disk} {env : Environment} {dir : Path} {user? : Option Path}
    {given : Layer} {noSourceRoots : Bool} {c : Config} {flag : Text}
    (h : Layered (builtInSource :: sources disk env dir user? (given.commandLine noSourceRoots)) c)
    (horigin : c.origins[Setting.key .sourceRoots]? = some (.commandLine flag)) : c.sourceRoots = false := by
  obtain ⟨origin, ho, lower, source, higher, hsources, hvalue, hsource, -⟩ := h .sourceRoots
  have hflag : source.origin .sourceRoots = .commandLine flag := by
    rw [hsource]
    exact Option.some.inj (ho.symm.trans horigin)
  have hmem : source ∈ builtInSource :: sources disk env dir user? (given.commandLine noSourceRoots) := by
    rw [hsources]
    simp
  rw [eq_commandLineSource hmem hflag] at hvalue
  have hgiven : (if noSourceRoots then some false else none) = some c.sourceRoots := hvalue
  cases noSourceRoots with
  | true => exact (Option.some.inj hgiven).symm
  | false => cases hgiven

/-- In what the sources make together, each setting has the value and the origin of the highest source that gives it.
A configuration is found just if nothing is wrong with the sources and with that, else the error is the first of the
faults; and the configuration has its settings in the same way. -/
theorem layers_of_resolveFrom (disk : Disk) (env : Environment) (dir : Path) (user? : Option Path) (given : Layer)
    (noSourceRoots : Bool) :
    let cli := given.commandLine noSourceRoots
    Layered (builtInSource :: sources disk env dir user? cli) (merged disk env dir user? cli) ∧
      ((∃ c, resolveFrom disk env dir user? cli = .ok c) ↔ Acceptable disk env dir user? cli) ∧
      (∀ c, resolveFrom disk env dir user? cli = .ok c →
        Layered (builtInSource :: sources disk env dir user? cli) c ∧
          c.loaded = (presentFiles disk dir user?).map Prod.snd ∧
          (∀ flag, c.origins[Setting.key .sourceRoots]? = some (.commandLine flag) → c.sourceRoots = false) ∧
          ∀ extension ∈ [c.layout.sourceExtension, c.layout.nativeExtension],
            extension ≠ [] ∧ Undotted extension) ∧
      ∀ e, resolveFrom disk env dir user? cli = .error e ↔ (faults disk env dir user? cli).head? = some e := by
  intro cli
  have hlayered := layered_merged disk env dir user? cli
  refine ⟨hlayered, ⟨?_, ?_⟩, ?_, fun _ => resolveFrom_eq_error⟩
  · rintro ⟨c, hc⟩
    exact (resolveFrom_eq_ok.mp hc).1
  · exact fun h => ⟨_, resolveFrom_eq_ok.mpr ⟨h, rfl⟩⟩
  · intro c hc
    obtain ⟨hsource, hnative⟩ := extensions_ne_nil_of_resolveFrom hc
    have hundotted := undottedExtensions_of_resolveFrom hc
    obtain ⟨-, rfl⟩ := resolveFrom_eq_ok.mp hc
    refine ⟨hlayered, rfl, fun _ => hlayered.sourceRoots_eq_false, ?_⟩
    simp only [List.forall_mem_cons, List.not_mem_nil, false_imp_iff, implies_true, and_true]
    exact ⟨⟨hsource, hundotted.source⟩, hnative, hundotted.native⟩

/-- Both files are there, and each of them gives something that the sources above it give as well. -/
def twoFiles : Disk :=
  let name (s : String) := Utf8.encode s.toList
  (Disk.empty.makeFile [name "user.toml"]
    (name "[defaults]\nformat = 'dot'\n[scanner]\nchunk_size = 32\n[resolver]\nmanifest = 'gren.json'\n")).makeFile
    [name ".elm-deps.toml", name "work"]
    (name "[scanner]\nchunk_size = 64\n[resolver]\nsource_extension = '..gren'\nsource_roots = true\n")

theorem layers_of_twoFiles :
    let env : Environment := [("ELM_DEPS_CHUNK_SIZE".toList, Utf8.encode " +96 ".toList)]
    let dir := Path.ofString "/work/src"
    let user? := some (Path.ofString "/user.toml")
    let cli := Layer.commandLine { format? := some .text } true
    Acceptable twoFiles env dir user? cli ∧
      ∃ c, resolveFrom twoFiles env dir user? cli = .ok c ∧
        Layered (builtInSource :: sources twoFiles env dir user? cli) c ∧
        c.format = .text ∧ c.chunk = 96 ∧ c.layout.sourceExtension = "gren".toList ∧
        c.layout.nativeExtension = "js".toList ∧ c.manifest = "gren.json".toList ∧ c.sourceRoots = false ∧
        c.loaded.map Path.bytes = [Utf8.encode "/user.toml".toList, Utf8.encode "/work/.elm-deps.toml".toList] := by
  intro env dir user? cli
  obtain ⟨-, haccepted, hok, -⟩ := layers_of_resolveFrom twoFiles env dir user? { format? := some .text } true
  have hfaults : faults twoFiles env dir user? cli = [] := List.length_eq_zero_iff.mp (by decide +kernel)
  have hacceptable := faults_eq_nil_iff.mp hfaults
  obtain ⟨c, hc⟩ := haccepted.mpr hacceptable
  obtain ⟨hlayered, -⟩ := hok c hc
  obtain ⟨-, rfl⟩ := resolveFrom_eq_ok.mp hc
  exact ⟨hacceptable, _, hc, hlayered, by decide +kernel⟩

end Config

end ElmImports
