import ElmImports.Proofs.Lines.Drain

/-!
# How far a reader reads ahead

A reader asks for a chunk only when no line is queued. So a line is handed out before any failure that comes behind
its line feed is met, and when it is handed out, less than one chunk has been read beyond it. A failure is met when
no line feed has come since the last line.
-/

namespace ElmImports

/-! ## Lines and their line feeds -/

def withFeeds (lines : List Bytes) : Bytes :=
  lines.flatMap (· ++ [lineFeed])

theorem withFeeds_cons (line : Bytes) (lines : List Bytes) :
    withFeeds (line :: lines) = line ++ lineFeed :: withFeeds lines := by
  simp [withFeeds]

theorem withFeeds_append (lines more : List Bytes) : withFeeds (lines ++ more) = withFeeds lines ++ withFeeds more :=
  List.flatMap_append

theorem rawLines_withFeeds : ∀ {lines : List Bytes}, (∀ line ∈ lines, lineFeed ∉ line) →
    rawLines (withFeeds lines) = lines
  | [], _ => rfl
  | line :: lines, h => by
    obtain ⟨hline, hlines⟩ := List.forall_mem_cons.mp h
    rw [withFeeds_cons, rawLines_append_lineFeed hline, rawLines_withFeeds hlines]

namespace Source

/-- The bytes delivered before the first failure and the first read of no bytes. Interruptions break nothing. -/
def unbroken : Source → Bytes
  | [] => []
  | .failure .interrupted :: rest => unbroken rest
  | .failure _ :: _ => []
  | .data [] :: _ => []
  | .data (b :: bytes) :: rest => b :: bytes ++ unbroken rest

variable {limit : Nat} {source rest : Source}

theorem unbroken_of_read_end (hl : 0 < limit) (h : source.read limit = (.ok [], rest)) : source.unbroken = [] := by
  fun_induction read limit source with
  | case1 => rfl
  | case2 rest' ih => exact ih h
  | case3 cause rest' _ => cases h
  | case4 bytes rest' =>
    cases bytes with
    | nil => rfl
    | cons b bytes =>
      obtain ⟨limit, rfl⟩ := Nat.exists_eq_add_one.mpr hl
      cases h

theorem unbroken_of_read_failure {cause : OsError} (h : source.read limit = (.error cause, rest)) :
    source.unbroken = [] := by
  fun_induction read limit source with
  | case1 => cases h
  | case2 rest' ih => exact ih h
  | case3 cause' rest' hc =>
    rw [unbroken]
    exact hc
  | case4 bytes rest' => cases h

theorem unbroken_cons_data {bytes : Bytes} (h : bytes ≠ []) (rest : Source) :
    unbroken (.data bytes :: rest) = bytes ++ unbroken rest := by
  cases bytes with
  | nil => exact absurd rfl h
  | cons b bytes => rfl

theorem unbroken_of_read_data {b : UInt8} {bytes : Bytes} (h : source.read limit = (.ok (b :: bytes), rest)) :
    source.unbroken = b :: bytes ++ rest.unbroken ∧ (b :: bytes).length ≤ limit := by
  fun_induction read limit source with
  | case1 => cases h
  | case2 rest' ih => exact ih h
  | case3 cause rest' _ => cases h
  | case4 data rest' =>
    obtain ⟨htake, hrest⟩ := Prod.mk.inj h
    have htake : data.take limit = b :: bytes := Except.ok.inj htake
    have hne : data ≠ [] := by rintro rfl; rw [List.take_nil] at htake; cases htake
    rw [unbroken_cons_data hne, ← htake]
    refine ⟨?_, List.length_take_le _ _⟩
    by_cases hd : data.drop limit = []
    · rw [if_pos (List.isEmpty_iff.mpr hd)] at hrest
      rw [← hrest, List.take_of_length_le (List.drop_eq_nil_iff.mp hd)]
    · rw [if_neg (by simpa using hd)] at hrest
      rw [← hrest, unbroken_cons_data hd, ← List.append_assoc, List.take_append_drop]

end Source

namespace Reader

/-! ## Cutting loses nothing -/

section
variable {held bytes : Bytes}

theorem withFeeds_cut (held bytes : Bytes) :
    withFeeds (cut held bytes).1 ++ (cut held bytes).2.reverse = held.reverse ++ bytes := by
  fun_induction cut held bytes with
  | case1 held => simp [withFeeds]
  | case2 held bytes lines rest hcut ih =>
    rw [hcut, List.reverse_nil, List.nil_append] at ih
    rw [withFeeds_cons, List.append_assoc, List.cons_append, ih]
    rfl
  | case3 held b bytes hb ih =>
    rw [ih, List.reverse_cons, List.append_assoc]
    rfl

theorem not_mem_of_mem_cut (h : lineFeed ∉ held) : ∀ line ∈ (cut held bytes).1, lineFeed ∉ line := by
  fun_induction cut held bytes with
  | case1 => exact List.forall_mem_nil _
  | case2 held bytes lines rest hcut ih =>
    rw [hcut] at ih
    exact List.forall_mem_cons.mpr ⟨by simpa using h, ih List.not_mem_nil⟩
  | case3 held b bytes hb ih =>
    refine ih fun hm => ?_
    rcases List.mem_cons.mp hm with he | hm
    · exact hb he.symm
    · exact h hm

theorem length_held_le {line : Bytes} {lines : List Bytes} (h : (cut held bytes).1 = line :: lines) :
    held.length ≤ line.length := by
  fun_induction cut held bytes with
  | case1 => cases h
  | case2 held bytes lines' rest hcut ih =>
    cases h
    exact Nat.le_of_eq List.length_reverse.symm
  | case3 held b bytes hb ih => exact Nat.le_trans (Nat.le_succ _) (ih h)

end

/-! ## What is buffered -/

def backlog (r : Reader) : Bytes :=
  withFeeds r.ready ++ r.held.reverse

/-- The bytes to be handed out before anything goes wrong. -/
def pending (r : Reader) : Bytes :=
  r.backlog ++ r.source.elim [] Source.unbroken

/-- No line is queued beyond the first but what one chunk gave. -/
structure Tidy (r : Reader) : Prop extends r.Steady where
  whole : ∀ line ∈ r.ready, lineFeed ∉ line
  ahead : ∀ line lines, r.ready = line :: lines → (withFeeds lines ++ r.held.reverse).length < r.chunk

theorem tidy_ofSource (source : Source) (chunk : Nat) : (ofSource source chunk).Tidy where
  toSteady := steady_ofSource source chunk
  whole := List.forall_mem_nil _
  ahead := nofun

/-- `r'` is `r` once `bytes` have been handed out, line feeds counted. -/
structure Past (r : Reader) (bytes : Bytes) (r' : Reader) : Prop where
  tidy : r'.Tidy
  chunk : r'.chunk = r.chunk
  failures : r'.failuresLeft = r.failuresLeft
  pending : r.pending = bytes ++ r'.pending
  counted : r'.bytesRead + r.backlog.length = r.bytesRead + bytes.length + r'.backlog.length

theorem Past.refl {r : Reader} (h : r.Tidy) : r.Past [] r :=
  ⟨h, rfl, rfl, rfl, rfl⟩

theorem Past.trans {r₁ r₂ r₃ : Reader} {bytes₁ bytes₂ : Bytes} (h₁ : r₁.Past bytes₁ r₂) (h₂ : r₂.Past bytes₂ r₃) :
    r₁.Past (bytes₁ ++ bytes₂) r₃ where
  tidy := h₂.tidy
  chunk := h₂.chunk.trans h₁.chunk
  failures := h₂.failures.trans h₁.failures
  pending := by rw [h₁.pending, h₂.pending, List.append_assoc]
  counted := by
    have hcounted₁ := h₁.counted
    have hcounted₂ := h₂.counted
    rw [List.length_append]
    omega

section
variable {r : Reader} {source rest : Source} {b : UInt8} {bytes : Bytes}

def afterChunk (r : Reader) (rest : Source) (bytes : Bytes) : Reader :=
  { r with
    source := some rest
    ready := (cut r.held bytes).1
    held := (cut r.held bytes).2
    bytesRead := r.bytesRead + bytes.length }

theorem afterChunk_of_cut {ready : List Bytes} {held : Bytes} (hcut : cut r.held (b :: bytes) = (ready, held)) :
    r.afterChunk rest (b :: bytes) =
      { r with source := some rest, ready, held, bytesRead := r.bytesRead + bytes.length + 1 } := by
  unfold afterChunk
  rw [hcut]
  rfl

theorem backlog_afterChunk (hready : r.ready = []) : (r.afterChunk rest bytes).backlog = r.backlog ++ bytes := by
  unfold backlog
  rw [hready]
  exact withFeeds_cut r.held bytes

theorem Tidy.afterChunk (h : r.Tidy) (hlimit : bytes.length ≤ r.chunk) : (r.afterChunk rest bytes).Tidy where
  asks := h.asks
  holds := not_mem_cut h.holds
  whole := not_mem_of_mem_cut h.holds
  ahead line lines hlines := by
    have hcut : (cut r.held bytes).1 = line :: lines := hlines
    have hlength := congrArg List.length (withFeeds_cut r.held bytes)
    have hheld := length_held_le hcut
    rw [hcut, withFeeds_cons] at hlength
    simp only [List.length_append, List.length_cons, List.length_reverse] at hlength
    show (withFeeds lines ++ (cut r.held bytes).2.reverse).length < r.chunk
    rw [List.length_append, List.length_reverse]
    omega

end

theorem afterCalls_succ : ∀ (calls : Nat) (r : Reader), afterCalls (calls + 1) r = (afterCalls calls r).nextLine.2
  | 0, _ => rfl
  | calls + 1, r => afterCalls_succ calls r.nextLine.2

/-! ## One call -/

section
variable {r : Reader} {raw more : Bytes}

/-- What is held back has no line feed, so that one has to come from the source. -/
theorem Tidy.feed_not_mem (h : r.Tidy) (hready : r.ready = []) (hrest : r.source.elim [] Source.unbroken = []) :
    lineFeed ∉ r.pending := by
  unfold pending backlog
  rw [hready, hrest, List.append_nil]
  exact mt List.mem_reverse.mp h.holds

theorem pending_of_ready {line : Bytes} {ready : List Bytes} (hready : r.ready = line :: ready) :
    r.backlog = line ++ lineFeed :: backlog { r with ready } ∧
      r.pending = line ++ lineFeed :: pending { r with ready } := by
  have hbacklog : r.backlog = line ++ lineFeed :: backlog { r with ready } := by
    unfold backlog
    rw [hready, withFeeds_cons, List.append_assoc, List.cons_append]
  refine ⟨hbacklog, ?_⟩
  unfold pending
  rw [hbacklog, List.append_assoc, List.cons_append]

theorem past_of_ready {line : Bytes} {ready : List Bytes} (h : r.Tidy) (hready : r.ready = line :: ready) :
    r.Past (line ++ [lineFeed]) { r with ready } := by
  obtain ⟨hbacklog, hpending⟩ := pending_of_ready hready
  have hahead := h.ahead line ready hready
  refine ⟨⟨⟨h.asks, h.holds⟩, ?_, ?_⟩, rfl, rfl, ?_, ?_⟩
  · exact fun other hother => h.whole other (hready ▸ List.mem_cons_of_mem _ hother)
  · rintro next lines rfl
    rw [withFeeds_cons] at hahead
    simp only [List.length_append, List.length_cons] at hahead ⊢
    omega
  · rw [hpending, List.append_assoc]
    rfl
  · rw [hbacklog]
    simp only [List.length_append, List.length_cons, List.length_nil]
    omega

section
variable {source rest : Source} {bytes : Bytes} (hsource : r.source = some source) (hready : r.ready = [])
  (hunbroken : source.unbroken = bytes ++ rest.unbroken)
include hsource hready hunbroken

theorem pending_afterChunk : (r.afterChunk rest bytes).pending = r.pending := by
  unfold pending
  rw [backlog_afterChunk hready, hsource, List.append_assoc, Option.elim_some, hunbroken]
  rfl

theorem past_of_afterChunk (hfailures : source.failures = rest.failures) {taken : Bytes} {r' : Reader}
    (h : (r.afterChunk rest bytes).Past taken r') : r.Past taken r' := by
  have hcounted := h.counted
  have hread : (r.afterChunk rest bytes).bytesRead = r.bytesRead + bytes.length := rfl
  rw [backlog_afterChunk hready, List.length_append, hread] at hcounted
  refine ⟨h.tidy, h.chunk, ?_, ?_, by omega⟩
  · rw [h.failures, failuresLeft_of_source hsource, hfailures]
    rfl
  · rw [← pending_afterChunk hsource hready hunbroken, h.pending]

end

/-- A line whose line feed is to come is handed out, whatever comes behind it, of which less than a chunk was read. -/
theorem nextLine_of_pending (h : r.Tidy) (hraw : lineFeed ∉ raw) (hpending : r.pending = raw ++ lineFeed :: more) :
    r.nextLine.1 = .ok (some (decodeLine raw)) ∧ r.Past (raw ++ [lineFeed]) r.nextLine.2 ∧
      r.nextLine.2.backlog.length < r.chunk := by
  have hfeed : lineFeed ∈ r.pending := by simp [hpending]
  fun_induction nextLine r with
  | case1 r line ready hready =>
    have hline : lineFeed ∉ line := h.whole line (hready ▸ List.mem_cons_self)
    obtain ⟨rfl, -⟩ := Pieces.append_sep_inj hraw hline (hpending.symm.trans (pending_of_ready hready).2)
    exact ⟨rfl, past_of_ready h hready, h.ahead _ _ hready⟩
  | case2 r hnone hready => exact absurd hfeed (h.feed_not_mem hready (by rw [hnone]; rfl))
  | case3 r source hsource hready cause rest hread =>
    refine absurd hfeed (h.feed_not_mem hready ?_)
    rw [hsource]
    exact Source.unbroken_of_read_failure hread
  | case4 r source hsource hready rest hread hheld =>
    refine absurd hfeed (h.feed_not_mem hready ?_)
    rw [hsource]
    exact Source.unbroken_of_read_end h.asks hread
  | case5 r source hsource hready rest hread hheld =>
    refine absurd hfeed (h.feed_not_mem hready ?_)
    rw [hsource]
    exact Source.unbroken_of_read_end h.asks hread
  | case6 r source hsource hready b bytes rest hread ready held hcut ih =>
    obtain ⟨hunbroken, hlimit⟩ := Source.unbroken_of_read_data hread
    have hsame := pending_afterChunk hsource hready hunbroken
    rw [← afterChunk_of_cut hcut] at ih ⊢
    obtain ⟨hline, hpast, hahead⟩ := ih (h.afterChunk hlimit) (hsame.trans hpending) (hsame ▸ hfeed)
    exact ⟨hline, past_of_afterChunk hsource hready hunbroken (Source.read_data hread).2 hpast, hahead⟩

/-- A failure is met once no line feed is to come ahead of it. -/
theorem nextLine_of_failure {cause : OsError} (h : r.Tidy) (hfeed : lineFeed ∉ r.pending)
    (hfailure : r.failuresLeft.head? = some cause) : r.nextLine.1 = .error cause := by
  fun_induction nextLine r with
  | case1 r line ready hready => exact absurd (by simp [(pending_of_ready hready).2]) hfeed
  | case2 r hnone hready =>
    unfold failuresLeft at hfailure
    rw [hnone] at hfailure
    cases hfailure
  | case3 r source hsource hready cause' rest hread =>
    rw [failuresLeft_of_source hsource, (Source.read_failure hread).2.2] at hfailure
    cases hfailure
    rfl
  | case4 r source hsource hready rest hread hheld =>
    rw [failuresLeft_of_source hsource, (Source.read_end h.asks hread).2] at hfailure
    cases hfailure
  | case5 r source hsource hready rest hread hheld =>
    rw [failuresLeft_of_source hsource, (Source.read_end h.asks hread).2] at hfailure
    cases hfailure
  | case6 r source hsource hready b bytes rest hread ready held hcut ih =>
    obtain ⟨hunbroken, hlimit⟩ := Source.unbroken_of_read_data hread
    rw [← afterChunk_of_cut hcut] at ih ⊢
    refine ih (h.afterChunk hlimit) ?_ ?_
    · rwa [pending_afterChunk hsource hready hunbroken]
    · rw [failuresLeft_of_source hsource, (Source.read_data hread).2] at hfailure
      exact hfailure

end

end Reader

end ElmImports
