import Ophan.Http.Escapes

/-!
# What a normalized path can still contain

`normalizePath` decodes the escapes of a path and then resolves its segments.
The segments of the result are always resolved.  Its escapes are not settled
when a `%` of a segment that is kept completes an escape, and these are the
only paths whose result is not normal.
-/

namespace Ophan.Http

open List

/-! ## Normal paths -/

/-- Add a segment to those kept so far.  A segment is a dot segment when its
units spell one. -/
def keepSegment (kept : List Bytes) (segment : Bytes) : List Bytes :=
  let spelled := (readUnits segment).map PathUnit.spelled
  if segment = [] ∨ spelled = [some dot] then kept
  else if spelled = [some dot, some dot] then kept.dropLast
  else kept ++ [segment]

/-- The segments of a path that are left when its dot segments are
resolved. -/
def keptSegments (path : Bytes) : List Bytes :=
  (splitAtEvery slash path).foldl keepSegment []

/-- No kept segment completes an escape. -/
def CompletesNoEscape (path : Bytes) : Prop :=
  ∀ segment ∈ keptSegments path, completesEscape (readUnits segment) = false

def NoUnreservedEscape (path : Bytes) : Prop :=
  ∀ before high low behind c,
    path = before ++ percent :: high :: low :: behind →
      hexPair high low = some c → isUnreserved c = false

structure Normal (path : Bytes) : Prop where
  noDotSegment : ∀ segment ∈ splitAtEvery slash path, segment ≠ [dot] ∧ segment ≠ [dot, dot]
  noEmptySegment : ∀ segment ∈ (splitAtEvery slash path).tail.dropLast, segment ≠ []
  noUnreservedEscape : NoUnreservedEscape path
  again : normalizePath path = none

/-! ## Resolved segments -/

/-- A segment that is kept when dot segments are resolved. -/
structure CleanSegment (segment : Bytes) : Prop where
  ne_nil : segment ≠ []
  ne_dot : segment ≠ [dot]
  ne_dotDot : segment ≠ [dot, dot]
  noSlash : slash ∉ segment

structure CleanPath (path : Bytes) (segments last : List Bytes) :
    Prop where
  clean : ∀ segment ∈ segments, CleanSegment segment
  shape : last = [] ∧ segments ≠ [] ∨ last = [[]]
  path_eq : path = joinAfter slash (segments ++ last)

variable {segments parts : List Bytes} {segment path : Bytes}

theorem mem_pushSegment {kept : Bytes} (member : kept ∈ pushSegment segments segment) :
    kept ∈ segments ∨ kept = segment ∧ kept ≠ [] ∧ kept ≠ [dot] ∧ kept ≠ [dot, dot] := by
  unfold pushSegment at member
  split at member
  · exact Or.inl member
  split at member
  · exact Or.inl (mem_of_mem_dropLast member)
  · grind

/-- The segments that are kept are among those of the path. -/
theorem mem_foldl_pushSegment {kept : Bytes} :
    ∀ {segments : List Bytes}, kept ∈ parts.foldl pushSegment segments →
      kept ∈ segments ∨ kept ∈ parts ∧ kept ≠ [] ∧ kept ≠ [dot] ∧ kept ≠ [dot, dot] := by
  induction parts with
  | nil => exact Or.inl
  | cons part parts ih =>
    intro segments member
    rcases ih member with pushed | ⟨inside, clean⟩
    · exact (mem_pushSegment pushed).imp_right fun ⟨isPart, clean⟩ =>
        ⟨isPart ▸ mem_cons_self, clean⟩
    · exact Or.inr ⟨mem_cons_of_mem _ inside, clean⟩

theorem foldl_pushSegment_of_clean :
    ∀ {segments : List Bytes},
      (∀ part ∈ parts, CleanSegment part) →
      parts.foldl pushSegment segments = segments ++ parts := by
  induction parts with
  | nil => simp
  | cons part parts ih =>
    intro segments clean
    have here := clean part (by simp)
    have pushed : pushSegment segments part = segments ++ [part] := by
      simp [pushSegment, here.ne_nil, here.ne_dot, here.ne_dotDot]
    rw [foldl_cons, pushed, ih (forall_mem_cons.mp clean).2]
    simp

theorem cleanPath_writeSegments
    (clean : ∀ segment ∈ segments, CleanSegment segment) (asDir : Bool) :
    ∃ last, CleanPath (writeSegments segments asDir) segments last := by
  cases segments with
  | nil => exact ⟨[[]], clean, .inr rfl, by simp [writeSegments]⟩
  | cons segment segments =>
    cases asDir with
    | false => exact ⟨[], clean, .inl ⟨rfl, by simp⟩, by simp [writeSegments]⟩
    | true =>
      refine ⟨[[]], clean, .inr rfl, ?_⟩
      rw [joinAfter_append]
      simp [writeSegments]

private theorem slash_suffix_iff {before ending : Bytes}
    (noSlash : slash ∉ segment) (endingNoSlash : slash ∉ ending) :
    slash :: ending <:+ before ++ slash :: segment ↔ segment = ending := by
  constructor
  · intro isSuffix
    have other : slash :: segment <:+ before ++ slash :: segment := suffix_append ..
    rcases suffix_or_suffix_of_suffix isSuffix other with within | within
    · rcases suffix_cons_iff.mp within with same | inside
      · exact (List.cons.inj same).2.symm
      · exact absurd (inside.subset (by simp)) noSlash
    · rcases suffix_cons_iff.mp within with same | inside
      · exact (List.cons.inj same).2
      · exact absurd (inside.subset (by simp)) endingNoSlash
  · simp_all

theorem endsWithDir_append {before : Bytes} (noSlash : slash ∉ segment) :
    endsWithDir (before ++ slash :: segment) = true ↔
      segment = [] ∨ segment = [dot] ∨ segment = [dot, dot] := by
  simp only [endsWithDir, Bool.or_eq_true, isSuffixOf_iff_suffix]
  rw [slash_suffix_iff noSlash (by simp), slash_suffix_iff noSlash (by decide),
    slash_suffix_iff noSlash (by decide), or_assoc]

namespace CleanPath

variable {path : Bytes} {segments last : List Bytes}

section

variable (shaped : CleanPath path segments last)

include shaped

theorem eq_nil_of_mem_last {part : Bytes} (member : part ∈ last) : part = [] := by
  rcases shaped.shape with ⟨none, _⟩ | slashOnly
  · simp [none] at member
  · simpa [slashOnly] using member

theorem noSlash : ∀ part ∈ segments ++ last, slash ∉ part := by
  intro part member
  rcases mem_append.mp member with inSegments | inLast
  · exact (shaped.clean part inSegments).noSlash
  · simp [shaped.eq_nil_of_mem_last inLast]

theorem split_eq : splitAtEvery slash path = [] :: (segments ++ last) := by
  have parts := splitAtEvery_joinAfter shaped.noSlash (not_mem_nil (a := slash))
  rw [shaped.path_eq]
  simpa using parts

theorem segments_eq : (splitAtEvery slash path).foldl pushSegment [] = segments := by
  rw [shaped.split_eq, foldl_cons, foldl_append]
  have first : pushSegment [] [] = [] := rfl
  rw [first, foldl_pushSegment_of_clean shaped.clean]
  rcases shaped.shape with ⟨none, _⟩ | slashOnly
  · simp [none]
  · simp [slashOnly, pushSegment]

theorem write_eq : writeSegments segments (endsWithDir path) = path := by
  rcases shaped.shape with ⟨none, nonempty⟩ | slashOnly
  · obtain ⟨initial, final, rfl⟩ : ∃ initial final, segments = initial ++ [final] :=
      ⟨segments.dropLast, segments.getLast nonempty, (dropLast_append_getLast nonempty).symm⟩
    have cleanFinal := shaped.clean final (by simp)
    have whole : path = joinAfter slash initial ++ slash :: final := by
      rw [shaped.path_eq, none, append_nil, joinAfter_append]
      simp
    have noDir : endsWithDir path = false := by
      rw [← Bool.not_eq_true, whole, endsWithDir_append cleanFinal.noSlash]
      simp [cleanFinal.ne_nil, cleanFinal.ne_dot, cleanFinal.ne_dotDot]
    rw [noDir, whole, writeSegments, joinAfter_append]
    simp
  · have whole : path = joinAfter slash segments ++ [slash] := by
      rw [shaped.path_eq, slashOnly, joinAfter_append]
      simp
    have isDir : endsWithDir path = true := by
      rw [whole, endsWithDir_append (by simp)]
      simp
    rw [isDir, whole, writeSegments]
    cases segments <;> simp

theorem settled_eq : settled path = segments.all settled := by
  rw [shaped.path_eq, settled_joinAfter, all_append]
  rcases shaped.shape with ⟨none, _⟩ | slashOnly
  · simp [none]
  · simp [slashOnly, settled]

end

end CleanPath

/-! ## Normalizing again -/

theorem NoUnreservedEscape.of_infix {part : Bytes}
    (none : NoUnreservedEscape path) (inside : part <:+: path) :
    NoUnreservedEscape part := by
  obtain ⟨start, ending, rfl⟩ := inside
  intro before high low behind c cut
  refine none (start ++ before) high low (behind ++ ending) c ?_
  simp [cut]

theorem length_decodeLoop : NoUnreservedEscape path → (decodeLoop path).length = path.length := by
  induction path using unit_induction with
  | nil => simp [decodeLoop]
  | byte b rest starts ih =>
    intro none
    have below := ih (none.of_infix (suffix_cons b rest).isInfix)
    rw [decodeLoop_byte starts, length_cons, below, length_cons]
  | escape high low c behind pair ih =>
    intro none
    have reserved : isUnreserved c = false := none [] high low behind c rfl pair
    have below := ih (none.of_infix ⟨[percent, high, low], [], by simp⟩)
    rw [decodeLoop_escape pair, reserved]
    simp [below]

theorem decodeLoop_of_short (short : path.length < 3) : decodeLoop path = path := by
  match path with
  | [] => rfl
  | [_] => rfl
  | [_, _] => rfl
  | _ :: _ :: _ :: _ => grind

/-- Without escapes of unreserved characters a clean segment stays clean. -/
theorem CleanSegment.decodeLoop (clean : CleanSegment segment) (none : NoUnreservedEscape segment) :
    CleanSegment (decodeLoop segment) := by
  have sameIfShort : ∀ {text : Bytes}, text.length < 3 →
      Http.decodeLoop segment = text → segment = text := by
    intro text short same
    have length := length_decodeLoop none
    rw [same] at length
    rw [← same, decodeLoop_of_short (by omega)]
  refine ⟨fun same => clean.ne_nil (sameIfShort (by simp) same),
    fun same => clean.ne_dot (sameIfShort (by simp) same),
    fun same => clean.ne_dotDot (sameIfShort (by simp) same),
    slash_notMem_decodeLoop clean.noSlash⟩

theorem infix_joinAfter {part : Bytes}
    (member : part ∈ parts) : part <:+: joinAfter slash parts := by
  obtain ⟨before, behind, rfl⟩ := append_of_mem member
  refine ⟨joinAfter slash before ++ [slash], joinAfter slash behind, ?_⟩
  simp [joinAfter_append]

theorem decodeLoop_joinAfter (parts : List Bytes) :
    decodeLoop (joinAfter slash parts) = joinAfter slash (parts.map decodeLoop) := by
  have behind : ∀ first : Bytes,
      decodeLoop (first ++ joinAfter slash parts) =
        decodeLoop first ++ joinAfter slash (parts.map decodeLoop) := by
    induction parts with
    | nil => simp
    | cons part parts ih =>
      intro first
      rw [joinAfter_cons, cons_append, decodeLoop_append_slash, ih, map_cons, joinAfter_cons,
        cons_append]
  simpa [decodeLoop] using behind []

theorem CleanPath.decodeLoop {last : List Bytes}
    (shaped : CleanPath path segments last) (none : NoUnreservedEscape path) :
    CleanPath (decodeLoop path) (segments.map decodeLoop) last := by
  refine ⟨?_, ?_, ?_⟩
  · intro segment member
    obtain ⟨raw, rawMember, rfl⟩ := mem_map.mp member
    refine (shaped.clean raw rawMember).decodeLoop (none.of_infix ?_)
    rw [shaped.path_eq]
    exact infix_joinAfter (mem_append_left _ rawMember)
  · simpa using shaped.shape
  · have lastSame : last.map Http.decodeLoop = last := by
      rcases shaped.shape with ⟨nothing, _⟩ | slashOnly
      · simp [nothing]
      · simp [slashOnly, Http.decodeLoop]
    rw [shaped.path_eq, decodeLoop_joinAfter, map_append, lastSame]

theorem suspicious_of_percent (member : percent ∈ path) : suspicious path = true := by
  induction path with
  | nil => simp at member
  | cons b path ih =>
    rcases mem_cons.mp member with rfl | behind
    · simp [suspicious]
    · simp [suspicious, ih behind]

/-- A path of clean segments is normal exactly when its escapes are settled. -/
theorem CleanPath.normal_iff {last : List Bytes}
    (shaped : CleanPath path segments last) (valid : validUtf8 path = true) :
    Normal path ↔ settled path = true := by
  constructor
  · intro normal
    rw [settled_iff]
    by_cases member : percent ∈ path
    · have decoded := shaped.decodeLoop normal.noUnreservedEscape
      have again := normal.again
      simp only [normalizePath, suspicious_of_percent member, if_true,
        decodeUnreserved_eq valid, decoded.segments_eq,
        decoded.write_eq] at again
      simpa using again
    · exact decodeLoop_of_not_mem member
  · intro stable
    have same : decodeUnreserved path = path := by
      rw [decodeUnreserved_eq valid, (settled_iff path).mp stable]
    refine ⟨?_, ?_, ?_, ?_⟩
    · rw [shaped.split_eq]
      intro segment member
      rcases mem_cons.mp member with rfl | member
      · simp
      rcases mem_append.mp member with inSegments | inLast
      · have clean := shaped.clean segment inSegments
        exact ⟨clean.ne_dot, clean.ne_dotDot⟩
      · simp [shaped.eq_nil_of_mem_last inLast]
    · rw [shaped.split_eq, tail_cons]
      intro segment member
      refine (shaped.clean segment ?_).ne_nil
      rcases shaped.shape with ⟨nothing, _⟩ | slashOnly
      · rw [nothing, append_nil] at member
        exact mem_of_mem_dropLast member
      · rwa [slashOnly, dropLast_concat] at member
    · intro before high low behind c cut pair
      rw [cut] at stable
      exact not_isUnreserved_of_settled stable pair
    · simp [normalizePath, same, shaped.segments_eq, shaped.write_eq]

/-! ## The routed path -/

theorem suspicious_of_suffix {ending : Bytes}
    (isSuffix : ending <:+ path) (suspect : suspicious ending = true) :
    suspicious path = true := by
  obtain ⟨start, rfl⟩ := isSuffix
  induction start with
  | nil => exact suspect
  | cons b start ih => simp [suspicious, ih]

/-- A path that is not looked at any further consists of clean segments. -/
theorem cleanPath_of_not_suspicious {rest : Bytes} :
    suspicious (slash :: rest) = false →
      ∃ segments last, CleanPath (slash :: rest) segments last := by
  have headOf : ∀ {rest : Bytes}, suspicious (slash :: rest) = false →
      rest.head? ≠ some slash ∧ rest.head? ≠ some dot := by
    intro rest clear
    simp only [suspicious, decide_true, Bool.true_and,
      Bool.or_eq_false_iff, decide_eq_false_iff_not] at clear
    exact ⟨clear.1.2.1, clear.1.2.2⟩
  induction rest using split_induction slash with
  | last segment without =>
    intro clear
    by_cases isEmpty : segment = []
    · exact ⟨[], [[]], by simp, .inr rfl, by simp [isEmpty]⟩
    · refine ⟨[segment], [], ?_, .inl ⟨rfl, by simp⟩, by simp⟩
      rw [forall_mem_singleton]
      refine ⟨isEmpty, ?_, ?_, without⟩
      · grind
      · grind
  | cut segment rest without ih =>
    intro clear
    have below : suspicious (slash :: rest) = false := by
      rw [← Bool.not_eq_true] at clear ⊢
      intro suspect
      refine clear (suspicious_of_suffix ?_ suspect)
      exact (suffix_append ..).trans (suffix_cons ..)
    obtain ⟨segments, last, shaped⟩ := ih below
    refine ⟨segment :: segments, last, ?_, ?_, ?_⟩
    · rw [forall_mem_cons]
      refine ⟨⟨?_, ?_, ?_, without⟩, shaped.clean⟩
      · grind
      · grind
      · grind
    · rcases shaped.shape with ⟨nothing, _⟩ | slashOnly
      · exact .inl ⟨nothing, by simp⟩
      · exact .inr slashOnly
    · rw [cons_append, joinAfter_cons, ← shaped.path_eq, cons_append]

/-- The path written by `normalizePath` before it is compared. -/
def writtenPath (path : Bytes) : Bytes :=
  writeSegments ((splitAtEvery slash (decodeUnreserved path)).foldl pushSegment [])
    (endsWithDir (decodeUnreserved path))

theorem routedPath_eq (absolute : path.head? = some slash) :
    routedPath path = writtenPath path := by
  by_cases suspect : suspicious path = true
  · simp only [routedPath, normalizePath, if_pos suspect]
    split
    · rfl
    · rename_i same
      simpa [writtenPath] using (not_not.mp same).symm
  · obtain ⟨rest, rfl⟩ : ∃ rest, path = slash :: rest := by
      cases path with
      | nil => simp at absolute
      | cons b rest => simp_all
    obtain ⟨segments, last, shaped⟩ := cleanPath_of_not_suspicious (by simpa using suspect)
    have without : percent ∉ slash :: rest := fun member => suspect (suspicious_of_percent member)
    have same : decodeUnreserved (slash :: rest) = slash :: rest := by
      rw [decodeUnreserved, if_neg (by simpa using without)]
    rw [writtenPath, same, shaped.segments_eq, shaped.write_eq, routedPath,
      normalizePath, if_neg suspect, Option.getD_none]

theorem decodeLoop_eq_nil_iff (segment : Bytes) : decodeLoop segment = [] ↔ segment = [] := by
  induction segment using unit_induction with
  | nil => simp [decodeLoop]
  | byte b rest starts ih => simp [decodeLoop_byte starts]
  | escape high low c behind pair ih =>
    rw [decodeLoop_escape pair]
    split <;> simp

/-- Resolving the decoded segments and decoding the kept ones agree. -/
theorem pushSegment_decodeLoop (kept : List Bytes) (segment : Bytes) :
    pushSegment (kept.map decodeLoop) (decodeLoop segment) =
      (keepSegment kept segment).map decodeLoop := by
  have isDot : decodeLoop segment = [dot] ↔
      (readUnits segment).map PathUnit.spelled = [some dot] := by
    rw [decodeLoop_eq_flatMap, flatMap_text_eq_iff (by decide)]
    rfl
  have isDotDot : decodeLoop segment = [dot, dot] ↔
      (readUnits segment).map PathUnit.spelled = [some dot, some dot] := by
    rw [decodeLoop_eq_flatMap, flatMap_text_eq_iff (by decide)]
    rfl
  simp only [pushSegment, keepSegment, decodeLoop_eq_nil_iff, isDot, isDotDot]
  split
  · rfl
  split
  · exact (map_dropLast ..).symm
  · simp

theorem foldl_pushSegment_decodeLoop (path : Bytes) :
    (splitAtEvery slash (decodeLoop path)).foldl pushSegment [] =
      (keptSegments path).map decodeLoop := by
  rw [splitAtEvery_decodeLoop, keptSegments]
  generalize splitAtEvery slash path = parts
  have along : ∀ kept : List Bytes,
      (parts.map decodeLoop).foldl pushSegment (kept.map decodeLoop) =
        (parts.foldl keepSegment kept).map decodeLoop := by
    induction parts with
    | nil => simp
    | cons part parts ih =>
      intro kept
      rw [map_cons, foldl_cons, pushSegment_decodeLoop, ih, foldl_cons]
  exact along []

/-- The routed path consists of the decoded kept segments. -/
theorem cleanPath_routedPath (valid : validUtf8 path = true) (absolute : path.head? = some slash) :
    (∃ last, CleanPath (routedPath path) ((keptSegments path).map decodeLoop) last) ∧
      validUtf8 (routedPath path) = true := by
  have decodedValid := validUtf8_decodeLoop path valid
  rw [routedPath_eq absolute, writtenPath, decodeUnreserved_eq valid,
    ← foldl_pushSegment_decodeLoop]
  have kept : ∀ segment ∈ (splitAtEvery slash (decodeLoop path)).foldl pushSegment [],
      segment ∈ splitAtEvery slash (decodeLoop path) ∧
        segment ≠ [] ∧ segment ≠ [dot] ∧ segment ≠ [dot, dot] :=
    fun segment member => (mem_foldl_pushSegment member).resolve_left not_mem_nil
  have resolved : ∀ segment ∈ (splitAtEvery slash (decodeLoop path)).foldl pushSegment [],
      CleanSegment segment := fun segment member => by
    obtain ⟨inside, notEmpty, notDot, notDotDot⟩ := kept segment member
    exact ⟨notEmpty, notDot, notDotDot, not_mem_of_mem_splitAtEvery _ segment inside⟩
  obtain ⟨last, shaped⟩ := cleanPath_writeSegments resolved (endsWithDir (decodeLoop path))
  refine ⟨⟨last, shaped⟩, ?_⟩
  rw [shaped.path_eq]
  refine validUtf8_joinAfter ?_
  intro part member
  rcases mem_append.mp member with inSegments | inLast
  · exact validUtf8_of_mem_split decodedValid part (kept part inSegments).1
  · rw [shaped.eq_nil_of_mem_last inLast, validUtf8]

/-- The routed path is normal exactly when no `%` of a kept segment completes
an escape. -/
theorem routedPath_normal_iff {path : Bytes}
    (valid : validUtf8 path = true) (absolute : path.head? = some slash) :
    Normal (routedPath path) ↔ CompletesNoEscape path := by
  obtain ⟨⟨last, shaped⟩, routedValid⟩ := cleanPath_routedPath valid absolute
  rw [shaped.normal_iff routedValid, shaped.settled_eq, all_map, all_eq_true]
  simp only [Function.comp_apply, settled_decodeLoop, Bool.not_eq_true', CompletesNoEscape]

/-- An escaped dot segment is resolved, an escaped slash is kept. -/
theorem routedPath_normal_public :
    routedPath (bytes "/public/%2e%2e/a%2Fb") = bytes "/a%2Fb" ∧ Normal (bytes "/a%2Fb") := by
  have routed : routedPath (bytes "/public/%2e%2e/a%2Fb") = bytes "/a%2Fb" := by
    decide +kernel
  refine ⟨routed, ?_⟩
  rw [← routed]
  exact (routedPath_normal_iff (by decide +kernel) (by decide +kernel)).mpr
    (by unfold CompletesNoEscape; decide +kernel)

/-- The escapes of the letter `e` are decoded, and then the dots are escaped:
the routed path is not the one the next normalization sees. -/
theorem routedPath_secret_not_normal :
    validUtf8 (bytes "/%2%65%2%65/secret") = true ∧
      (bytes "/%2%65%2%65/secret").head? = some slash ∧
      routedPath (bytes "/%2%65%2%65/secret") = bytes "/%2e%2e/secret" ∧
      normalizePath (bytes "/%2e%2e/secret") = some (bytes "/secret") ∧
      ¬Normal (routedPath (bytes "/%2%65%2%65/secret")) := by
  refine ⟨by decide +kernel, by decide +kernel, by decide +kernel, by decide +kernel, ?_⟩
  intro normal
  have again := normal.again
  revert again
  decide +kernel

end Ophan.Http
