import ElmImports.Proofs.Walk.Dependencies

/-!
# The history of a set of dependencies

A set of dependencies comes about by changes, in which paths are inserted or left out. What it lists can be read
off its history alone: the paths that were inserted and not left out since, in the order in which each was first
inserted since.
-/

namespace ElmImports.Dependencies

inductive Change
  | insert (p : Path)
  | extend (ps : List Path)
  | exclude (excluded : PathSet)

namespace Change

def inserted : Change → List Path
  | insert p => [p.normalize]
  | extend ps => ps.map Path.normalize
  | exclude _ => []

/-- A path is compared with the excluded ones as they are given. -/
def excludes : Change → Path → Bool
  | insert _, _ => false
  | extend _, _ => false
  | exclude excluded, p => excluded.contains p

theorem excludes_congr (change : Change) {p q : Path} (h : (p == q) = true) :
    change.excludes p = change.excludes q := by
  cases change with
  | insert _ => rfl
  | extend _ => rfl
  | exclude excluded => exact contains_eq_of_beq excluded p q h

end Change

def change (d : Dependencies) : Change → Dependencies
  | .insert p => d.insert p
  | .extend ps => d.insertAll ps
  | .exclude excluded => d.exclude excluded

def afterChanges (d : Dependencies) (changes : List Change) : Dependencies :=
  changes.foldl change d

/-! ## Histories -/

def excludedBy (changes : List Change) (p : Path) : Bool :=
  changes.any (·.excludes p)

/-- The insertions of paths that are not excluded later, in order. -/
def lasting : List Change → List Path
  | [] => []
  | change :: later => change.inserted.filter (! excludedBy later ·) ++ lasting later

theorem excludedBy_congr (changes : List Change) {p q : Path} (h : (p == q) = true) :
    excludedBy changes p = excludedBy changes q := by
  unfold excludedBy
  rw [show (fun change : Change => change.excludes p) = fun change => change.excludes q from
    funext fun change => change.excludes_congr h]

theorem mem_lasting {p : Path} : ∀ {changes : List Change}, p ∈ lasting changes ↔
    ∃ before change later, changes = before ++ change :: later ∧ p ∈ change.inserted ∧ excludedBy later p = false
  | [] => by simp [lasting]
  | change :: later => by
    rw [lasting, List.mem_append, List.mem_filter, mem_lasting]
    constructor
    · rintro (⟨hp, hlater⟩ | ⟨before, change', later', rfl, hp, hlater⟩)
      · exact ⟨[], change, later, rfl, hp, by simpa using hlater⟩
      · exact ⟨change :: before, change', later', rfl, hp, hlater⟩
    · rintro ⟨before, change', later', heq, hp, hlater⟩
      cases before with
      | nil =>
        obtain ⟨rfl, rfl⟩ := List.cons.inj heq
        exact Or.inl ⟨hp, by simpa using hlater⟩
      | cons _ before =>
        obtain ⟨rfl, rfl⟩ := List.cons.inj heq
        exact Or.inr ⟨before, change', later', rfl, hp, hlater⟩

theorem isNormal_of_mem_lasting {p : Path} {changes : List Change} (h : p ∈ lasting changes) : p.IsNormal := by
  obtain ⟨_, change, _, -, hp, -⟩ := mem_lasting.mp h
  cases change with
  | insert q =>
    obtain rfl := List.mem_singleton.mp hp
    exact q.isNormal_normalize
  | extend qs =>
    obtain ⟨q, -, rfl⟩ := List.mem_map.mp hp
    exact q.isNormal_normalize
  | exclude _ => cases hp

/-! ## What changes leave -/

theorem Valid.change {d : Dependencies} (h : d.Valid) (change : Change) : (d.change change).Valid := by
  cases change with
  | insert p => exact h.insert p
  | extend ps => exact h.insertAll
  | exclude excluded => exact h.exclude excluded

theorem Valid.afterChanges : ∀ {changes : List Change} {d : Dependencies}, d.Valid → (d.afterChanges changes).Valid
  | [], _, h => h
  | change :: _, _, h => (h.change change).afterChanges

/-- A change leaves what it does not exclude, and behind it what it inserts, each path once. -/
theorem Valid.toList_change {d : Dependencies} (h : d.Valid) (change : Change) :
    (d.change change).toList = (d.toList.filter (! change.excludes ·) ++ change.inserted).eraseDups := by
  have hkept : d.toList.filter (fun _ => ! false) = d.toList := List.filter_eq_self.mpr fun _ _ => rfl
  cases change with
  | insert p =>
    show (d.insert p).toList = (d.toList.filter (fun _ => ! false) ++ [p.normalize]).eraseDups
    rw [hkept, h.toList_insert]
  | extend ps =>
    show (d.insertAll ps).toList = (d.toList.filter (fun _ => ! false) ++ ps.map Path.normalize).eraseDups
    rw [hkept, h.toList_insertAll]
  | exclude excluded =>
    have hlist := toList_exclude d excluded
    show (d.exclude excluded).toList = (d.toList.filter (! excluded.contains ·) ++ []).eraseDups
    rw [List.append_nil, ← hlist, (h.exclude excluded).eraseDups_toList]

theorem Valid.toList_afterChanges : ∀ {changes : List Change} {d : Dependencies}, d.Valid →
    (d.afterChanges changes).toList =
      (d.toList.filter (! excludedBy changes ·) ++ lasting changes).eraseDups
  | [], d, h => by
    have hkept : d.toList.filter (! excludedBy [] ·) = d.toList := List.filter_eq_self.mpr fun _ _ => rfl
    rw [hkept, lasting, List.append_nil, h.eraseDups_toList]
    rfl
  | change :: later, d, h => by
    have hfilter := eraseDups_filter (p := (! excludedBy later ·)) fun p q hpq => by
      rw [excludedBy_congr later hpq]
    have hkept : (d.toList.filter (! change.excludes ·)).filter (! excludedBy later ·) =
        d.toList.filter (! excludedBy (change :: later) ·) := by
      rw [List.filter_filter]
      refine List.filter_congr fun p _ => ?_
      show _ = ! (change.excludes p || excludedBy later p)
      rw [Bool.not_or, Bool.and_comm]
    show ((d.change change).afterChanges later).toList = _
    rw [(h.change change).toList_afterChanges, h.toList_change, ← hfilter, eraseDups_append_eraseDups,
      List.filter_append, hkept, lasting, List.append_assoc]

structure Records (d : Dependencies) (changes : List Change) : Prop where
  valid : d.Valid
  toList : d.toList = (lasting changes).eraseDups
  mem : ∀ p, p ∈ d.toList ↔ ∃ before change later, changes = before ++ change :: later ∧ p ∈ change.inserted ∧
    excludedBy later p = false
  contains : ∀ p, d.contains p = true ↔ p.normalize ∈ d.toList
  inserts : ∀ p, (d.insert? p).isSome = true ↔ p.normalize ∉ d.toList
  appends : ∀ p, (d.insert p).toList = d.toList ++ [p.normalize] ↔ p.normalize ∉ d.toList
  unchanged : ∀ p, p.normalize ∈ d.toList → d.insert p = d

theorem records_of_toList {d : Dependencies} (h : d.Valid) {changes : List Change}
    (hlist : d.toList = (lasting changes).eraseDups) : d.Records changes := by
  have hmem (p : Path) : p ∈ d.toList ↔ p ∈ lasting changes := by
    rw [hlist, mem_eraseDups_of_normal fun _ => isNormal_of_mem_lasting]
  have hinsert (p : Path) : d.insert? p = none ↔ p.normalize ∈ d.toList := h.insert?_eq_none_iff p
  refine ⟨h, hlist, fun p => (hmem p).trans mem_lasting, h.contains_iff, ?_, ?_, ?_⟩
  · intro p
    rw [← hinsert, Option.isSome_iff_ne_none]
  · intro p
    rw [← hinsert]
    unfold Dependencies.insert
    cases he : d.insert? p with
    | none => simp
    | some e => simp [toList_insert? he]
  · intro p hp
    unfold Dependencies.insert
    rw [(hinsert p).mpr hp, Option.getD_none]

/-- A set of dependencies holds what its history says, whether it starts out empty or with given paths. -/
theorem records_afterChanges (changes : List Change) :
    (afterChanges {} changes).Records changes ∧
      ∀ start : List Path, ((ofList start).afterChanges changes).Records (.extend start :: changes) := by
  refine ⟨records_of_toList valid_empty.afterChanges valid_empty.toList_afterChanges, fun start => ?_⟩
  -- to start with given paths is to insert them into the empty set first
  have hstart : (ofList start).afterChanges changes = afterChanges {} (.extend start :: changes) := rfl
  rw [hstart]
  exact records_of_toList valid_empty.afterChanges valid_empty.toList_afterChanges

/-- A path that is inserted again after its exclusion goes to the end; `./a` does not exclude `a`. -/
example :
    ((ofList [.ofString "a", .ofString "c/../b"]).afterChanges [.exclude {.ofString "./a"}, .insert (.ofString "a"),
      .exclude {.ofString "b/."}, .extend [.ofString "c", .ofString "b"]]).toList.map Path.bytes =
      [.ofString "a", .ofString "c", .ofString "b"].map Path.bytes := by
  decide +kernel

end ElmImports.Dependencies
