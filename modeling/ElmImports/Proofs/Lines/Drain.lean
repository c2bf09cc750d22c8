import ElmImports.ImportBlock.Scan
import ElmImports.Proofs.Text.Pieces

/-!
# Lines do not depend on how their bytes arrive

A reader that is asked again and again, after failures too, hands out the lines of the bytes its source
delivers before the first read of no bytes. The lines still to come are those that are queued and those
of the bytes held back followed by the bytes left; each call hands out the first of them or one failure of
the source, and leaves the rest.
-/

namespace ElmImports

/-! ## The lines of a byte string -/

def lineFeed : UInt8 := 0x0A

/-- What stands between line feeds; behind the last of them only if there is something. -/
def rawLines (bytes : Bytes) : List Bytes :=
  let pieces := bytes.splitOn lineFeed
  if pieces.getLast? = some [] then pieces.dropLast else pieces

theorem rawLines_of_not_mem {bytes : Bytes} (h : lineFeed ∉ bytes) (hne : bytes ≠ []) :
    rawLines bytes = [bytes] :=
  Pieces.lines_of_not_mem h hne

theorem rawLines_append_lineFeed {line : Bytes} (h : lineFeed ∉ line) (rest : Bytes) :
    rawLines (line ++ lineFeed :: rest) = line :: rawLines rest :=
  Pieces.lines_append_feed h rest

/-! ## What a source delivers -/

namespace Source

/-- The bytes delivered before the first read of no bytes. -/
def received : Source → Bytes
  | [] => []
  | .failure _ :: rest => received rest
  | .data [] :: _ => []
  | .data (b :: bytes) :: rest => b :: bytes ++ received rest

def failures : Source → List OsError
  | [] => []
  | .failure .interrupted :: rest => failures rest
  | .failure cause :: rest => cause :: failures rest
  | .data [] :: _ => []
  | .data (_ :: _) :: rest => failures rest

theorem read_end {limit : Nat} (hl : 0 < limit) {source rest : Source}
    (h : source.read limit = (.ok [], rest)) :
    source.received = [] ∧ source.failures = [] := by
  fun_induction read limit source with
  | case1 => exact ⟨rfl, rfl⟩
  | case2 rest' ih => exact ih h
  | case3 cause rest' _ => cases h
  | case4 bytes rest' =>
    cases bytes with
    | nil => exact ⟨rfl, rfl⟩
    | cons b bytes =>
      obtain ⟨limit, rfl⟩ := Nat.exists_eq_add_one.mpr hl
      cases h

theorem read_failure {limit : Nat} {source rest : Source} {cause : OsError}
    (h : source.read limit = (.error cause, rest)) :
    cause ≠ .interrupted ∧ source.received = rest.received ∧ source.failures = cause :: rest.failures := by
  fun_induction read limit source with
  | case1 => cases h
  | case2 rest' ih => exact ih h
  | case3 cause' rest' hc =>
    cases h
    have hne : cause ≠ .interrupted := fun he => hc (he ▸ rfl)
    refine ⟨hne, rfl, ?_⟩
    rw [failures]
    exact hne
  | case4 bytes rest' => cases h

theorem received_cons_data {bytes : Bytes} (h : bytes ≠ []) (rest : Source) :
    received (.data bytes :: rest) = bytes ++ received rest ∧
      failures (.data bytes :: rest) = failures rest := by
  cases bytes with
  | nil => exact absurd rfl h
  | cons b bytes => exact ⟨rfl, rfl⟩

theorem read_data {limit : Nat} {source rest : Source} {b : UInt8} {bytes : Bytes}
    (h : source.read limit = (.ok (b :: bytes), rest)) :
    source.received = b :: bytes ++ rest.received ∧ source.failures = rest.failures := by
  fun_induction read limit source with
  | case1 => cases h
  | case2 rest' ih => exact ih h
  | case3 cause rest' _ => cases h
  | case4 data rest' =>
    obtain ⟨htake, hrest⟩ := Prod.mk.inj h
    have htake : data.take limit = b :: bytes := Except.ok.inj htake
    have hne : data ≠ [] := by rintro rfl; rw [List.take_nil] at htake; cases htake
    obtain ⟨hr, hf⟩ := received_cons_data hne rest'
    rw [hr, hf, ← htake]
    by_cases hd : data.drop limit = []
    · rw [if_pos (List.isEmpty_iff.mpr hd)] at hrest
      have := List.take_append_drop limit data
      rw [hd, List.append_nil] at this
      rw [this, hrest]
      exact ⟨rfl, rfl⟩
    · rw [if_neg (by simpa using hd)] at hrest
      obtain ⟨hr', hf'⟩ := received_cons_data hd rest'
      rw [← hrest, hr', hf', ← List.append_assoc, List.take_append_drop]
      exact ⟨rfl, rfl⟩

end Source

namespace Reader

/-! ## Cutting a chunk into lines -/

theorem not_mem_cut {held bytes : Bytes} (h : lineFeed ∉ held) : lineFeed ∉ (cut held bytes).2 := by
  fun_induction cut held bytes with
  | case1 => exact h
  | case2 held bytes lines rest hcut ih =>
    rw [hcut] at ih
    exact ih List.not_mem_nil
  | case3 held b bytes hb ih =>
    refine ih fun hm => ?_
    rcases List.mem_cons.mp hm with he | hm
    · exact hb he.symm
    · exact h hm

theorem rawLines_cut {held bytes : Bytes} (h : lineFeed ∉ held) (rest : Bytes) :
    rawLines (held.reverse ++ (bytes ++ rest)) =
      (cut held bytes).1 ++ rawLines ((cut held bytes).2.reverse ++ rest) := by
  fun_induction cut held bytes with
  | case1 => rfl
  | case2 held bytes lines rest' hcut ih =>
    have := ih List.not_mem_nil
    rw [hcut, List.reverse_nil, List.nil_append] at this
    rw [List.cons_append, List.cons_append, ← this]
    exact rawLines_append_lineFeed (by simpa using h) _
  | case3 held b bytes hb ih =>
    have := ih fun hm => by
      rcases List.mem_cons.mp hm with he | hm
      · exact hb he.symm
      · exact h hm
    rw [← this, List.reverse_cons, List.append_assoc]
    rfl

/-! ## What a reader has still to give -/

def left (r : Reader) : Bytes :=
  r.source.elim [] Source.received

def failuresLeft (r : Reader) : List OsError :=
  r.source.elim [] Source.failures

def linesLeft (r : Reader) : List Bytes :=
  r.ready ++ match r.source with
    | none => []
    | some source => rawLines (r.held.reverse ++ source.received)

theorem left_of_source {r : Reader} {source : Source} (h : r.source = some source) :
    r.left = source.received := by
  unfold left; rw [h]; rfl

theorem failuresLeft_of_source {r : Reader} {source : Source} (h : r.source = some source) :
    r.failuresLeft = source.failures := by
  unfold failuresLeft; rw [h]; rfl

theorem linesLeft_of_source {r : Reader} {source : Source} (h : r.source = some source)
    (hr : r.ready = []) :
    r.linesLeft = rawLines (r.held.reverse ++ source.received) := by
  unfold linesLeft; rw [h, hr]; rfl

structure Steady (r : Reader) : Prop where
  asks : 0 < r.chunk
  holds : lineFeed ∉ r.held

theorem steady_ofSource (source : Source) (chunk : Nat) : (ofSource source chunk).Steady where
  asks := Nat.lt_of_lt_of_le Nat.one_pos (Nat.le_max_right ..)
  holds := List.not_mem_nil

/-- `taken` bytes were read between `r` and `r'`. -/
def Took (r : Reader) (taken : Bytes) (r' : Reader) : Prop :=
  r.left = taken ++ r'.left ∧ r'.bytesRead = r.bytesRead + taken.length

def Answers (r : Reader) : Except OsError (Option Text) → Reader → Prop
  | .ok (some line), r' => r'.failuresLeft = r.failuresLeft ∧
      ∃ raw, line = decodeLine raw ∧ r.linesLeft = raw :: r'.linesLeft
  | .error cause, r' =>
    cause ≠ .interrupted ∧ r.failuresLeft = cause :: r'.failuresLeft ∧ r'.linesLeft = r.linesLeft
  | .ok none, r' => r.linesLeft = [] ∧ r.failuresLeft = [] ∧ r'.source = none ∧ r'.ready = []

theorem nextLine_spec {r : Reader} (h : r.Steady) :
    r.nextLine.2.Steady ∧ (∃ taken, r.Took taken r.nextLine.2) ∧ r.Answers r.nextLine.1 r.nextLine.2 := by
  fun_induction nextLine r with
  | case1 r raw ready hready =>
    refine ⟨⟨h.asks, h.holds⟩, ⟨[], rfl, rfl⟩, rfl, raw, rfl, ?_⟩
    unfold linesLeft
    rw [hready]
    rfl
  | case2 r hsource hready =>
    refine ⟨h, ⟨[], rfl, rfl⟩, ?_, ?_, hsource, hready⟩
    · unfold linesLeft; rw [hready, hsource]; rfl
    · unfold failuresLeft; rw [hsource]; rfl
  | case3 r source hsource hready cause rest hread =>
    obtain ⟨hne, hr, hf⟩ := Source.read_failure hread
    refine ⟨⟨h.asks, h.holds⟩, ⟨[], ?_, rfl⟩, hne, ?_, ?_⟩
    · rw [left_of_source hsource, hr]; rfl
    · rw [failuresLeft_of_source hsource, hf]; rfl
    · rw [linesLeft_of_source hsource hready, hr]; exact linesLeft_of_source rfl hready
  | case4 r source hsource hready rest hread hheld =>
    obtain ⟨hr, hf⟩ := Source.read_end h.asks hread
    refine ⟨⟨h.asks, h.holds⟩, ⟨[], ?_, rfl⟩, ?_, ?_, rfl, hready⟩
    · rw [left_of_source hsource, hr]; rfl
    · rw [linesLeft_of_source hsource hready, hr, List.isEmpty_iff.mp hheld]; rfl
    · rw [failuresLeft_of_source hsource, hf]
  | case5 r source hsource hready rest hread hheld =>
    obtain ⟨hr, hf⟩ := Source.read_end h.asks hread
    refine ⟨⟨h.asks, List.not_mem_nil⟩, ⟨[], ?_, rfl⟩, ?_, r.held.reverse, rfl, ?_⟩
    · rw [left_of_source hsource, hr]; rfl
    · rw [failuresLeft_of_source hsource, hf]; rfl
    · have hne : r.held.reverse ≠ [] := by simpa using hheld
      rw [linesLeft_of_source hsource hready, hr, List.append_nil,
        rawLines_of_not_mem (by simpa using h.holds) hne]
      unfold linesLeft
      rw [hready]
      rfl
  | case6 r source hsource hready b bytes rest hread ready held hcut ih =>
    obtain ⟨hr, hf⟩ := Source.read_data hread
    have hholds : lineFeed ∉ (cut r.held (b :: bytes)).2 := not_mem_cut h.holds
    rw [hcut] at hholds
    -- the call goes on with the chunk cut up, which moves bytes from the source into the queue
    obtain ⟨hsteady, ⟨taken, hleft, hcount⟩, hanswers⟩ := ih ⟨h.asks, hholds⟩
    refine ⟨hsteady, ⟨b :: bytes ++ taken, ?_, ?_⟩, ?_⟩
    · rw [left_of_source hsource, hr, List.append_assoc, ← hleft]; rfl
    · rw [hcount, List.length_append, List.length_cons]
      dsimp only
      omega
    · have hlines : r.linesLeft = linesLeft { r with
          source := some rest, ready, held, bytesRead := r.bytesRead + bytes.length + 1 } := by
        rw [linesLeft_of_source hsource hready, hr, rawLines_cut h.holds, hcut]
        rfl
      have hfailures : r.failuresLeft = failuresLeft { r with
          source := some rest, ready, held, bytesRead := r.bytesRead + bytes.length + 1 } := by
        rw [failuresLeft_of_source hsource, hf]
        rfl
      unfold Answers
      rw [hlines, hfailures]
      exact hanswers

/-! ## All calls -/

/-- The answers up to the first that gives no line, going on after failures, and the reader they leave. -/
def drain (r : Reader) : List (Except OsError Text) × Reader :=
  match _hnext : r.nextLine with
  | (.ok none, last) => ([], last)
  | (.ok (some line), next) => (.ok line :: next.drain.1, next.drain.2)
  | (.error cause, next) => (.error cause :: next.drain.1, next.drain.2)
termination_by r.size
decreasing_by
  all_goals
    have h := r.size_nextLine.2 (by rw [_hnext]; exact nofun)
    rw [_hnext] at h
    exact h

def linesIn (answers : List (Except OsError Text)) : List Text :=
  answers.filterMap Except.toOption

def failuresIn (answers : List (Except OsError Text)) : List OsError :=
  answers.filterMap fun
    | .ok _ => none
    | .error cause => some cause

theorem Took.trans {r₁ r₂ r₃ : Reader} {taken₁ taken₂ : Bytes} (h₁ : r₁.Took taken₁ r₂)
    (h₂ : r₂.Took taken₂ r₃) :
    r₁.Took (taken₁ ++ taken₂) r₃ := by
  refine ⟨?_, ?_⟩
  · rw [h₁.1, h₂.1, List.append_assoc]
  · rw [h₂.2, h₁.2, List.length_append, Nat.add_assoc]

def afterCalls : Nat → Reader → Reader
  | 0, r => r
  | calls + 1, r => afterCalls calls r.nextLine.2

theorem took_afterCalls : ∀ (calls : Nat) {r : Reader}, r.Steady →
    ∃ taken, r.Took taken (afterCalls calls r)
  | 0, _, _ => ⟨[], rfl, rfl⟩
  | calls + 1, r, h => by
    obtain ⟨hsteady, ⟨taken₁, h₁⟩, -⟩ := nextLine_spec h
    obtain ⟨taken₂, h₂⟩ := took_afterCalls calls hsteady
    exact ⟨taken₁ ++ taken₂, h₁.trans h₂⟩

theorem nextLine_of_ended {r : Reader} (hsource : r.source = none) (hready : r.ready = []) :
    r.nextLine = (.ok none, r) := by
  rw [nextLine]
  split
  · rename_i hr; rw [hready] at hr; cases hr
  · rfl
  · rename_i hs; rw [hsource] at hs; cases hs

theorem drain_spec {r : Reader} (h : r.Steady) :
    linesIn r.drain.1 = r.linesLeft.map decodeLine ∧ failuresIn r.drain.1 = r.failuresLeft ∧
      .error .interrupted ∉ r.drain.1 ∧ (∃ taken, r.Took taken r.drain.2) ∧
      r.drain.2.source = none ∧ r.drain.2.ready = [] := by
  fun_induction drain r with
  | case1 r last hnext =>
    have hspec := nextLine_spec h
    rw [hnext] at hspec
    obtain ⟨-, htook, hlines, hfailures, hsource, hready⟩ := hspec
    rw [hlines, hfailures]
    exact ⟨rfl, rfl, List.not_mem_nil, htook, hsource, hready⟩
  | case2 r line next hnext ih =>
    have hspec := nextLine_spec h
    rw [hnext] at hspec
    obtain ⟨hsteady, ⟨taken₁, h₁⟩, hfailures, raw, rfl, hlines⟩ := hspec
    obtain ⟨ihlines, ihfailures, ihnot, ⟨taken₂, h₂⟩, ihend⟩ := ih hsteady
    refine ⟨?_, ?_, ?_, ⟨taken₁ ++ taken₂, h₁.trans h₂⟩, ihend⟩
    · rw [hlines, List.map_cons, ← ihlines]; rfl
    · rw [← hfailures, ← ihfailures]; rfl
    · intro hm
      rcases List.mem_cons.mp hm with he | hm
      · cases he
      · exact ihnot hm
  | case3 r cause next hnext ih =>
    have hspec := nextLine_spec h
    rw [hnext] at hspec
    obtain ⟨hsteady, ⟨taken₁, h₁⟩, hcause, hfailures, hlines⟩ := hspec
    obtain ⟨ihlines, ihfailures, ihnot, ⟨taken₂, h₂⟩, ihend⟩ := ih hsteady
    refine ⟨?_, ?_, ?_, ⟨taken₁ ++ taken₂, h₁.trans h₂⟩, ihend⟩
    · rw [← hlines, ← ihlines]; rfl
    · rw [hfailures, ← ihfailures]; rfl
    · intro hm
      rcases List.mem_cons.mp hm with he | hm
      · cases he; exact hcause rfl
      · exact ihnot hm

/-- However its bytes arrive, a source gives the lines of what it delivers and each of its failures once. -/
theorem drain_ofSource (source : Source) (chunk : Nat) :
    linesIn (ofSource source chunk).drain.1 = (rawLines source.received).map decodeLine ∧
      failuresIn (ofSource source chunk).drain.1 = source.failures ∧
      .error .interrupted ∉ (ofSource source chunk).drain.1 ∧
      (∀ calls, ∃ taken, source.received = taken ++ (afterCalls calls (ofSource source chunk)).left ∧
        (afterCalls calls (ofSource source chunk)).bytesRead = taken.length) ∧
      (ofSource source chunk).drain.2.bytesRead = source.received.length ∧
      (ofSource source chunk).drain.2.source = none ∧
      (ofSource source chunk).drain.2.nextLine = (.ok none, (ofSource source chunk).drain.2) := by
  have hsteady := steady_ofSource source chunk
  obtain ⟨hlines, hfailures, hnot, ⟨taken, hleft, hcount⟩, hsource, hready⟩ := drain_spec hsteady
  refine ⟨hlines, hfailures, hnot, fun calls => ?_, ?_, hsource, nextLine_of_ended hsource hready⟩
  · obtain ⟨taken, hleft, hcount⟩ := took_afterCalls calls hsteady
    exact ⟨taken, hleft, hcount.trans (Nat.zero_add _)⟩
  · have hnone : (ofSource source chunk).drain.2.left = [] := by unfold left; rw [hsource]; rfl
    rw [hnone, List.append_nil] at hleft
    rw [hcount, ← hleft]
    exact Nat.zero_add _

end Reader

end ElmImports
