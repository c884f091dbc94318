import Ophan.Waf.Body

/-!
# Bodies cut into chunks

A body session that has been fed some text without a match is as good as the
text itself: what it reports next is told by the text so far and the next
chunk.  Where the chunks were cut leaves no trace in it.
-/

namespace Ophan.Waf

open List

section Reader

namespace ChunkReader

def rest (reader : ChunkReader) : Bytes := (reader.overlap ++ reader.chunk).drop reader.pos

theorem read_eq (reader : ChunkReader) (size : Nat) :
    reader.read size =
      (reader.rest.take size,
        { reader with pos := reader.pos + (reader.rest.take size).length }) := by
  obtain ⟨overlap, chunk, pos⟩ := reader
  unfold read rest
  simp only
  by_cases ended : pos ≥ overlap.length + chunk.length
  · simp_all
  · rw [if_neg ended]
    by_cases early : pos < overlap.length
    · rw [if_pos early, drop_append_of_le_length (Nat.le_of_lt early), take_append]
      by_cases full : ((overlap.drop pos).take size).length ≥ size
      · simp_all
      · rw [if_neg (fun both => full both.2)]
        have whole : (overlap.drop pos).take size = overlap.drop pos := by
          apply take_of_length_le
          simp only [length_take, length_drop] at full ⊢
          omega
        rw [whole, if_pos (by simp only [length_drop]; omega)]
        have front : pos + (overlap.drop pos).length - overlap.length = 0 := by grind
        rw [front, drop_zero, length_append, Nat.add_assoc]
    · rw [if_neg early, if_neg (fun both => early both.1)]
      simp only [length_nil, Nat.add_zero, Nat.sub_zero, nil_append]
      rw [if_pos (Nat.not_lt.mp early), drop_append]
      have dropped : overlap.drop pos = [] := drop_eq_nil_of_le (Nat.not_lt.mp early)
      rw [dropped, nil_append]

/-- Reading until nothing comes gives the overlap and the chunk, whatever the
size of the buffer. -/
theorem drain_eq {size : Nat} (positive : 0 < size) (fuel : Nat) (reader : ChunkReader)
    (enough : reader.rest.length < fuel) : drain size fuel reader = reader.rest := by
  induction fuel generalizing reader with
  | zero => omega
  | succ fuel ih =>
    rw [drain, read_eq]
    cases isRest : reader.rest with
    | nil => simp
    | cons b more =>
      obtain ⟨left, isSize⟩ := Nat.exists_eq_succ_of_ne_zero (Nat.pos_iff_ne_zero.mp positive)
      have next : (⟨reader.overlap, reader.chunk,
          reader.pos + ((b :: more).take size).length⟩ : ChunkReader).rest =
          (b :: more).drop size := by
        unfold rest at isRest ⊢
        rw [← drop_drop, isRest]
        by_cases long : size ≤ (b :: more).length
        · rw [length_take, Nat.min_eq_left long]
        · simp
      have others := ih ⟨reader.overlap, reader.chunk, reader.pos + ((b :: more).take size).length⟩
        (by
          rw [next]
          rw [isRest] at enough
          simp only [length_drop, length_cons] at enough ⊢
          omega)
      rw [next] at others
      have nonempty : (b :: more).take size = b :: more.take left := by rw [isSize, take_succ_cons]
      simp_all

end ChunkReader

end Reader

section Overlap

/-- The three cases of the update keep the last bytes of overlap and chunk. -/
theorem updateOverlap_eq (overlapLen : Nat) {overlap : Bytes}
    (fits : overlap.length ≤ overlapLen) (chunk : Bytes) :
    updateOverlap overlapLen overlap chunk = (overlap ++ chunk).rtake overlapLen := by
  unfold updateOverlap List.rtake
  by_cases positive : overlapLen > 0
  · rw [if_pos positive]
    simp only [length_append]
    generalize isKeep : min (overlap.length + chunk.length) overlapLen = keep
    have dropped : overlap.length + chunk.length - overlapLen =
        overlap.length + chunk.length - keep := by omega
    rw [dropped]
    by_cases nothing : keep = 0
    · rw [if_pos nothing, drop_eq_nil_of_le (by rw [length_append]; omega)]
    · rw [if_neg nothing]
      by_cases inChunk : keep ≤ chunk.length
      · have past : overlap.length + chunk.length - keep - overlap.length =
            chunk.length - keep := by omega
        have front : overlap.drop (overlap.length + chunk.length - keep) = [] :=
          drop_eq_nil_of_le (by omega)
        rw [if_pos inChunk, drop_append, past, front, nil_append]
      · rw [if_neg inChunk]
        generalize isOld : keep - chunk.length = old
        have back : overlap.length + chunk.length - keep = overlap.length - old := by omega
        rw [back, drop_append_of_le_length (by omega)]
        generalize isMoved : copyToFront overlap (overlap.length - old) = moved
        have movedLength : moved.length = overlap.length := by
          rw [← isMoved, copyToFront, length_append, length_drop, length_drop]
          omega
        have front : moved.take old = overlap.drop (overlap.length - old) := by
          rw [← isMoved, copyToFront, take_append_of_le_length (by rw [length_drop]; omega)]
          exact take_of_length_le (by rw [length_drop]; omega)
        have padded : (if moved.length < keep then resize moved keep else moved).take old =
            overlap.drop (overlap.length - old) := by
          split
          · rw [resize, take_append_of_le_length (by rw [length_take]; omega), take_take,
              Nat.min_eq_left (by omega), front]
          · exact front
        rw [padded]
        apply take_left'
        rw [length_append, length_drop]
        omega
  · simp_all

theorem rtake_rtake_append (width : Nat) (before chunk : Bytes) :
    (before.rtake width ++ chunk).rtake width = (before ++ chunk).rtake width := by
  unfold List.rtake
  simp only [length_append, length_drop]
  by_cases long : width ≤ before.length
  · have whole : before.length - (before.length - width) = width := by omega
    rw [whole, drop_append, drop_append, drop_drop]
    congr 2
    · omega
    · grind
  · have zero : before.length - width = 0 := by omega
    rw [zero, drop_zero, Nat.sub_zero]

end Overlap

section Automata

/-- Go on from where a run got to. -/
def DfaScan.andThen (run : DfaScan) (next : Nat → DfaScan) : DfaScan :=
  match run with
  | .reached sid => next sid
  | .matched pattern => .matched pattern
  | .gaveUp => .gaveUp

theorem scan_append (dfa : HybridDfa) (sid : Nat) (first second : Bytes) :
    dfa.scan sid (first ++ second) =
      (dfa.scan sid first).andThen fun next => dfa.scan next second := by
  induction first generalizing sid with
  | nil => rfl
  | cons b rest ih =>
    rw [cons_append, HybridDfa.scan, HybridDfa.scan]
    cases dfa.nextState sid b with
    | none => rfl
    | some next =>
      simp only
      split
      · rfl
      · split
        · rfl
        · exact ih next

namespace CompiledBodyPhase

def dfaRun (phase : CompiledBodyPhase) (text : Bytes) : DfaScan :=
  phase.dfa.elim .gaveUp fun dfa => dfa.start.elim .gaveUp fun sid => dfa.scan sid text

def literalIn (phase : CompiledBodyPhase) (text : Bytes) : Option Nat :=
  phase.ac.bind (·.streamFind text)

def eoiHit (phase : CompiledBodyPhase) (text : Bytes) : Option BodyMatchInfo :=
  match phase.dfaRun text with
  | .reached sid =>
    phase.dfa.bind fun dfa =>
      (dfa.nextEoiState sid).bind fun last =>
        if dfa.isMatch last then some ⟨dfa.matchPattern last, true⟩ else none
  | _ => none

/-- What is reported for a chunk: a literal, or a regex in the text so far, or at
the end of the body a regex that matches there. -/
def report (phase : CompiledBodyPhase) (literal : Option Nat) (text : Bytes)
    (endBody : Bool) : Option BodyMatchInfo :=
  match literal with
  | some pattern => some ⟨pattern, false⟩
  | none =>
    match phase.dfaRun text with
    | .matched pattern => some ⟨pattern, true⟩
    | _ => if endBody then phase.eoiHit text else none

/-- The overlap is wide enough for the literals. -/
def Windowed (phase : CompiledBodyPhase) : Prop :=
  ∀ before chunk, phase.literalIn before = none →
    (phase.literalIn (before.rtake phase.overlapLen ++ chunk)).isSome =
      (phase.literalIn (before ++ chunk)).isSome

end CompiledBodyPhase

def BodySession.resume (session : BodySession) (phase : CompiledBodyPhase) : DfaScan :=
  if session.regexActive phase then
    phase.dfa.elim .gaveUp fun dfa => (session.dfaState.or dfa.start).elim .gaveUp .reached
  else .gaveUp

/-- A session that has been fed a text and has not matched. -/
structure Streaming (phase : CompiledBodyPhase) (before : Bytes)
    (session : BodySession) : Prop where
  going : session.phaseState = .empty ∨ session.phaseState = .scanning
  overlap : session.overlap = before.rtake phase.overlapLen
  literal : before = [] ∨ phase.literalIn before = none
  regexes : session.resume phase = phase.dfaRun before

variable {phase : CompiledBodyPhase}

theorem streaming_new (phase : CompiledBodyPhase) : Streaming phase [] BodySession.new := by
  constructor
  · exact Or.inl rfl
  · simp [BodySession.new, List.rtake]
  · exact Or.inl rfl
  · unfold BodySession.resume BodySession.regexActive CompiledBodyPhase.dfaRun
    cases phase.dfa with
    | none => rfl
    | some dfa =>
      cases isStart : dfa.start with
      | none => simp [BodySession.new, isStart]
      | some sid => simp [BodySession.new, isStart, HybridDfa.scan]

theorem dfaRun_append (phase : CompiledBodyPhase) (before chunk : Bytes) :
    phase.dfaRun (before ++ chunk) =
      (phase.dfaRun before).andThen fun sid =>
        phase.dfa.elim .gaveUp fun dfa => dfa.scan sid chunk := by
  unfold CompiledBodyPhase.dfaRun
  cases phase.dfa with
  | none => rfl
  | some dfa =>
    cases isStart : dfa.start with
    | none => simp [isStart, DfaScan.andThen]
    | some sid => simp [isStart, scan_append]

variable {before : Bytes} {session : BodySession}

theorem feedRegexes_eq (session : BodySession) (phase : CompiledBodyPhase)
    (chunk : Bytes) (endBody : Bool) :
    session.feedRegexes phase chunk endBody =
      match (session.resume phase).andThen fun sid =>
        phase.dfa.elim .gaveUp fun dfa => dfa.scan sid chunk with
      | .matched pattern => (.block, session.hit pattern true)
      | .gaveUp =>
        BodySession.finish
          { session with
            regexGaveUp := session.regexGaveUp || session.regexActive phase }
          phase endBody
      | .reached next =>
        BodySession.finish { session with dfaState := some next } phase endBody := by
  unfold BodySession.feedRegexes BodySession.resume
  by_cases active : session.regexActive phase = true
  · simp only [active, if_true, Bool.or_true]
    cases isDfa : phase.dfa with
    | none => simp [BodySession.regexActive, isDfa] at active
    | some dfa =>
      cases isSid : session.dfaState.or dfa.start with
      | none => simp [isSid, DfaScan.andThen]
      | some sid => cases run : dfa.scan sid chunk <;> simp [isSid, run, DfaScan.andThen]
  · rw [Bool.not_eq_true] at active
    simp only [active, Bool.false_eq_true, if_false, Bool.or_false, DfaScan.andThen]

/-- How a call of `feed` ends, by what it is said to report. -/
structure Answers (reported : Option BodyMatchInfo) (endBody : Bool)
    (answer : BodyAction × BodySession) (Next : BodySession → Prop) : Prop where
  hit : ∀ info, reported = some info →
    answer.1 = .block ∧ answer.2.lastHit = some info ∧ answer.2.phaseState = .matched
  clean : reported = none → endBody = true → answer.1 = .allow
  going : reported = none → endBody = false → answer.1 = .proceed ∧ Next answer.2

theorem answers_hit (session : BodySession) (pattern : Nat) (isRegex endBody : Bool)
    (Next : BodySession → Prop) :
    Answers (some ⟨pattern, isRegex⟩) endBody (.block, session.hit pattern isRegex) Next where
  hit := by
    rintro info ⟨⟩
    exact ⟨rfl, rfl, rfl⟩
  clean := nofun
  going := nofun

theorem answers_finish {reported : Option BodyMatchInfo} {endBody : Bool}
    {Next : BodySession → Prop}
    (isReported : reported = if endBody then (session.eoiMatch phase).map (⟨·, true⟩) else none)
    (next : Next { session with phaseState := .scanning }) :
    Answers reported endBody (session.finish phase endBody) Next := by
  rw [isReported]
  cases endBody with
  | false => exact ⟨nofun, nofun, fun _ _ => ⟨rfl, next⟩⟩
  | true =>
    unfold BodySession.finish
    cases session.eoiMatch phase with
    | none => exact ⟨nofun, fun _ _ => rfl, nofun⟩
    | some pattern => exact answers_hit ..

theorem answers_feedRegexes (regexes : session.resume phase = phase.dfaRun before)
    (chunk : Bytes) (endBody : Bool) :
    Answers (phase.report none (before ++ chunk) endBody) endBody
      (session.feedRegexes phase chunk endBody) fun after =>
        after.phaseState = .scanning ∧ after.overlap = session.overlap ∧
          after.resume phase = phase.dfaRun (before ++ chunk) := by
  rw [feedRegexes_eq, regexes, ← dfaRun_append]
  unfold CompiledBodyPhase.report CompiledBodyPhase.eoiHit
  cases run : phase.dfaRun (before ++ chunk) with
  | matched pattern => exact answers_hit ..
  | gaveUp =>
    have inactive : BodySession.regexActive
        { session with
          regexGaveUp := session.regexGaveUp || session.regexActive phase }
        phase = false := by
      unfold BodySession.regexActive
      cases session.rewindable <;> cases session.regexGaveUp <;> cases phase.dfa.isSome <;> rfl
    apply answers_finish
    · simp [BodySession.eoiMatch, inactive]
    · refine ⟨rfl, rfl, ?_⟩
      unfold BodySession.resume
      rw [if_neg]
      rw [Bool.not_eq_true]
      exact inactive
  | reached next =>
    -- the run got through, so the regexes were active and there is a DFA
    have active : session.regexActive phase = true := by
      by_contra inactive
      rw [dfaRun_append, ← regexes] at run
      unfold BodySession.resume at run
      rw [if_neg inactive] at run
      cases run
    obtain ⟨dfa, isDfa⟩ : ∃ dfa, phase.dfa = some dfa := by
      unfold BodySession.regexActive at active
      rw [Bool.and_eq_true] at active
      exact Option.isSome_iff_exists.mp active.2
    have stillActive : BodySession.regexActive { session with dfaState := some next }
        phase = true := active
    apply answers_finish
    · unfold BodySession.eoiMatch
      rw [stillActive, isDfa]
      simp only [if_true, Option.bind_some]
      cases dfa.nextEoiState next with
      | none => rfl
      | some last => simp_all
    · refine ⟨rfl, rfl, ?_⟩
      unfold BodySession.resume
      rw [if_pos (by exact active), isDfa]
      rfl

theorem Answers.mono {reported : Option BodyMatchInfo} {endBody : Bool}
    {answer : BodyAction × BodySession} {First Second : BodySession → Prop}
    (answers : Answers reported endBody answer First)
    (stronger : reported = none → ∀ after, First after → Second after) :
    Answers reported endBody answer Second where
  hit := answers.hit
  clean := answers.clean
  going none notEnded :=
    ⟨(answers.going none notEnded).1, stronger none _ (answers.going none notEnded).2⟩

theorem Streaming.window (windowed : phase.Windowed) (streaming : Streaming phase before session)
    (chunk : Bytes) :
    (phase.literalIn (before.rtake phase.overlapLen ++ chunk)).isSome =
      (phase.literalIn (before ++ chunk)).isSome := by
  rcases streaming.literal with rfl | quiet
  · simp [List.rtake]
  · exact windowed before chunk quiet

variable (libs : Libraries)

/-- A session that is fed a chunk answers by the text so far, and goes on with
it. -/
theorem Streaming.answers (windowed : phase.Windowed)
    (streaming : Streaming phase before session) (chunk : Bytes) (endBody : Bool) :
    Answers
      (phase.report (phase.literalIn (before.rtake phase.overlapLen ++ chunk))
        (before ++ chunk) endBody)
      endBody (session.feed libs phase chunk endBody)
      (Streaming phase (before ++ chunk)) := by
  have literalHit : session.literalHit libs phase chunk =
      phase.literalIn (before.rtake phase.overlapLen ++ chunk) := by
    unfold BodySession.literalHit CompiledBodyPhase.literalIn
    rw [ChunkReader.drain_eq libs.readSize_pos, streaming.overlap]
    · rfl
    · simp [ChunkReader.rest]
  have fed : session.feed libs phase chunk endBody =
      match phase.literalIn (before.rtake phase.overlapLen ++ chunk) with
      | some pattern => (.block, session.hit pattern false)
      | none =>
        BodySession.feedRegexes
          { session with
            overlap := updateOverlap phase.overlapLen session.overlap chunk }
          phase chunk endBody := by
    unfold BodySession.feed
    rw [literalHit]
    cases phase.literalIn (before.rtake phase.overlapLen ++ chunk) <;>
      rcases streaming.going with isState | isState <;> simp only [isState]
  rw [fed]
  cases found : phase.literalIn (before.rtake phase.overlapLen ++ chunk) with
  | some pattern => exact answers_hit ..
  | none =>
    have quiet : phase.literalIn (before ++ chunk) = none := by
      have same := streaming.window windowed chunk
      simp_all
    apply Answers.mono (answers_feedRegexes (by exact streaming.regexes) chunk endBody)
    rintro - after ⟨scanning, overlap, regexes⟩
    constructor
    · exact Or.inr scanning
    · rw [overlap, updateOverlap_eq, streaming.overlap, rtake_rtake_append]
      rw [streaming.overlap, List.rtake, length_drop]
      omega
    · exact Or.inr quiet
    · exact regexes

end Automata

section Delivery

variable (libs : Libraries)

def BodySession.deliver (phase : CompiledBodyPhase) :
    BodySession → List Bytes → List BodyAction
  | _, [] => []
  | session, [last] => [(session.feed libs phase last true).1]
  | session, chunk :: next :: rest =>
    (session.feed libs phase chunk false).1 ::
      deliver phase (session.feed libs phase chunk false).2 (next :: rest)

/-- The search for these patterns builds its automaton, knows how long they are
and reports a match exactly where one of them occurs.  A stream search refuses a
list with an empty pattern, so this leaves such a list out. -/
structure Libraries.FindsOccurrences (patterns : List Bytes) : Prop where
  builds : patterns ≠ [] → ∃ ac, libs.ahoCorasick .standard patterns = some ac
  bounds : ∀ {ac}, libs.ahoCorasick .standard patterns = some ac →
    ∀ pattern ∈ patterns, pattern.length ≤ ac.maxPatternLen
  finds : ∀ {ac}, libs.ahoCorasick .standard patterns = some ac →
    ∀ text, (ac.streamFind text).isSome = true ↔ ∃ pattern ∈ patterns, pattern <:+: text

variable {libs}

section

variable {rules : List CompiledBodyRule}
  (lawful : libs.FindsOccurrences (CompiledBodyPhase.literals rules))

include lawful

theorem literalIn_compile (text : Bytes) :
    ((CompiledBodyPhase.compile libs rules).literalIn text).isSome = true ↔
      ∃ literal ∈ CompiledBodyPhase.literals rules, literal <:+: text := by
  unfold CompiledBodyPhase.literalIn CompiledBodyPhase.compile
  by_cases empty : (CompiledBodyPhase.literals rules).isEmpty = true
  · simp_all
  · obtain ⟨ac, isAc⟩ := lawful.builds (by simpa using empty)
    simp only [empty, Bool.false_eq_true, if_false, isAc, Option.bind_some]
    exact lawful.finds isAc text

/-- The overlap of a compiled phase leaves out at most one byte of a literal. -/
theorem length_le_overlapLen :
    ∀ literal ∈ CompiledBodyPhase.literals rules,
      literal.length ≤ (CompiledBodyPhase.compile libs rules).overlapLen + 1 := by
  intro literal member
  obtain ⟨ac, isAc⟩ := lawful.builds (ne_nil_of_mem member)
  have notEmpty : (CompiledBodyPhase.literals rules).isEmpty = false := by grind
  have bound := lawful.bounds isAc literal member
  simp only [CompiledBodyPhase.compile, notEmpty, Bool.false_eq_true, if_false, isAc,
    Option.elim_some]
  omega

theorem windowed_compile : (CompiledBodyPhase.compile libs rules).Windowed := by
  intro before chunk quiet
  have none : findFirst (CompiledBodyPhase.literals rules) before = Option.none := by
    rw [findFirst_eq_none]
    intro literal member occurs
    have found := (literalIn_compile lawful before).mpr ⟨literal, member, occurs⟩
    rw [quiet] at found
    cases found
  rw [Bool.eq_iff_iff, literalIn_compile lawful, literalIn_compile lawful,
    ← findFirst_isSome, ← findFirst_isSome,
    findFirst_rtake (length_le_overlapLen lawful) none]

end

/-- A phase without regexes blocks a body exactly when a literal is found in
it. -/
theorem block_mem_deliver {phase : CompiledBodyPhase} (windowed : phase.Windowed)
    (noRegexes : phase.dfa = none)
    (grows : ∀ before chunk, (phase.literalIn before).isSome = true →
      (phase.literalIn (before ++ chunk)).isSome = true)
    {chunks : List Bytes} (delivered : chunks ≠ []) {before : Bytes}
    {session : BodySession} (streaming : Streaming phase before session) :
    .block ∈ session.deliver libs phase chunks ↔
      (phase.literalIn (before ++ chunks.flatten)).isSome = true := by
  have gaveUp : ∀ text, phase.dfaRun text = .gaveUp := by
    intro text
    simp [CompiledBodyPhase.dfaRun, noRegexes]
  have reported : ∀ literal text endBody, phase.report literal text endBody =
      literal.map fun pattern => ⟨pattern, false⟩ := by
    intro literal text endBody
    cases literal with
    | none => simp [CompiledBodyPhase.report, CompiledBodyPhase.eoiHit, gaveUp]
    | some pattern => rfl
  induction chunks generalizing before session with
  | nil => exact absurd rfl delivered
  | cons chunk rest ih =>
    have sameWindow := streaming.window windowed chunk
    cases rest with
    | nil =>
      have answers := streaming.answers libs windowed chunk true
      rw [reported] at answers
      rw [BodySession.deliver, flatten_cons, flatten_nil, append_nil, ← sameWindow]
      cases found : phase.literalIn (before.rtake phase.overlapLen ++ chunk) with
      | none =>
        rw [found] at answers
        simp [answers.clean rfl rfl]
      | some pattern =>
        rw [found] at answers
        simp [(answers.hit _ rfl).1]
    | cons next rest =>
      have answers := streaming.answers libs windowed chunk false
      rw [reported] at answers
      rw [BodySession.deliver, flatten_cons, ← append_assoc]
      cases found : phase.literalIn (before.rtake phase.overlapLen ++ chunk) with
      | none =>
        rw [found] at answers
        obtain ⟨proceeds, streamingAfter⟩ := answers.going rfl rfl
        grind
      | some pattern =>
        rw [found] at answers
        rw [found] at sameWindow
        have later := grows (before ++ chunk) (next :: rest).flatten sameWindow.symm
        rw [(answers.hit _ rfl).1]
        exact iff_of_true mem_cons_self later

/-- Some chunk of a body blocks exactly when some literal occurs in the whole
body, however it was cut. -/
theorem block_mem_deliver_compile {rules : List CompiledBodyRule}
    (lawful : libs.FindsOccurrences (CompiledBodyPhase.literals rules))
    (literal : ∀ rule ∈ rules, rule.regexes = [] ∧ rule.negated = false)
    {chunks : List Bytes} (delivered : chunks ≠ []) :
    .block ∈ BodySession.new.deliver libs (CompiledBodyPhase.compile libs rules) chunks ↔
      ∃ rule ∈ rules, ∃ text ∈ rule.literals, text <:+: chunks.flatten := by
  have searched : CompiledBodyPhase.searched rules = rules := by
    unfold CompiledBodyPhase.searched
    simp_all
  have noRegexes : (CompiledBodyPhase.compile libs rules).dfa = none := by
    have empty : CompiledBodyPhase.regexes rules = [] := by
      unfold CompiledBodyPhase.regexes
      simp_all
    simp [CompiledBodyPhase.compile, empty]
  rw [block_mem_deliver (windowed_compile lawful) noRegexes _ delivered
    (streaming_new _), nil_append, literalIn_compile lawful]
  · simp only [CompiledBodyPhase.literals, searched, mem_flatMap]
    constructor
    · grind
    · grind
  · intro before chunk found
    rw [literalIn_compile lawful] at found ⊢
    grind

theorem le_foldl_max (patterns : List Bytes) (least : Nat) :
    least ≤ patterns.foldl (fun most pattern => max most pattern.length) least ∧
      ∀ pattern ∈ patterns, pattern.length ≤
        patterns.foldl (fun most pattern => max most pattern.length) least := by
  induction patterns generalizing least with
  | nil => simp
  | cons first rest ih => grind

theorem naive_findsOccurrences (patterns : List Bytes) :
    Libraries.naive.FindsOccurrences patterns := by
  constructor
  · intro _
    exact ⟨_, rfl⟩
  · intro ac isAc pattern member
    cases isAc
    exact (le_foldl_max patterns 0).2 pattern member
  · intro ac isAc text
    cases isAc
    exact findFirst_isSome

end Delivery

end Ophan.Waf
