import Ophan.Lib.Outcome

/-!
# Status codes and sets of them

A set is eight words of 64 bits, one bit for each code from 100 on.  The bits
that stand for a whole class of codes are bits of the last word, where a code
above 599 has its own bit.
-/

namespace Ophan.Http

/-- `http::StatusCode`, with the range that `from_u16` accepts. -/
structure StatusCode where
  code : Nat
  least : 100 ≤ code
  most : code < 1000
  deriving DecidableEq, Repr

def StatusCode.fromU16 (code : Nat) : Option StatusCode :=
  if valid : 100 ≤ code ∧ code < 1000 then
    some ⟨code, valid.1, valid.2⟩
  else none

inductive StatusPattern where
  | code (status : StatusCode)
  | informational
  | success
  | redirection
  | clientError
  | serverError
  deriving DecidableEq, Repr

structure StatusCodeSet where
  bits : Vector (BitVec 64) 8
  deriving DecidableEq, Repr

namespace StatusCodeSet

variable {ε : Type}

def new : StatusCodeSet := ⟨Vector.replicate 8 0⟩

def isEmpty (set : StatusCodeSet) : Bool := set.bits.all (· == 0)

/-- The word of a code and its bit there. -/
def index (status : StatusCode) : Nat × Nat := ((status.code - 100) >>> 6, (status.code - 100) % 64)

def setBit (set : StatusCodeSet) (word bit : Nat) : Outcome ε StatusCodeSet :=
  if inside : word < 8 then
    .ok ⟨set.bits.set word (set.bits[word] ||| BitVec.twoPow 64 bit)⟩
  else .panic

def insert (set : StatusCodeSet) : StatusPattern → Outcome ε StatusCodeSet
  | .code status => set.setBit (index status).1 (index status).2
  | .informational => set.setBit 7 52
  | .success => set.setBit 7 53
  | .redirection => set.setBit 7 54
  | .clientError => set.setBit 7 55
  | .serverError => set.setBit 7 56

/-- `contains`, without the debug assertion on the range of the code.  A word
outside the array panics. -/
def contains (set : StatusCodeSet) (status : StatusCode) : Outcome ε Bool :=
  if inside : (index status).1 < 8 then
    .ok (set.bits[(index status).1] &&& BitVec.twoPow 64 (index status).2 != 0)
  else .panic

/-- `remove`, with whether the code was there. -/
def remove (set : StatusCodeSet) (status : StatusCode) : Outcome ε (Bool × StatusCodeSet) :=
  if inside : (index status).1 < 8 then
    .ok (set.bits[(index status).1] &&& BitVec.twoPow 64 (index status).2 != 0,
      ⟨set.bits.set (index status).1
        (set.bits[(index status).1] &&& ~~~BitVec.twoPow 64 (index status).2)⟩)
  else .panic

/-- The code whose bit a pattern sets. -/
def marked : StatusPattern → Nat
  | .code status => status.code
  | .informational => 600
  | .success => 601
  | .redirection => 602
  | .clientError => 603
  | .serverError => 604

def has (set : StatusCodeSet) (code : Nat) : Bool :=
  match set.bits[(code - 100) / 64]? with
  | some word => word.getLsbD ((code - 100) % 64)
  | none => false

theorem and_twoPow_ne_zero (word : BitVec 64) {bit : Nat} (small : bit < 64) :
    (word &&& BitVec.twoPow 64 bit != 0) = word.getLsbD bit := by
  rw [BitVec.and_twoPow]
  by_cases set : word.getLsbD bit = true
  · rw [if_pos set, set, bne_iff_ne]
    intro zero
    have nonzero : (BitVec.twoPow 64 bit).getLsbD bit = true := by simp [small]
    rw [zero] at nonzero
    simp at nonzero
  · simp_all

theorem index_eq (status : StatusCode) :
    index status = ((status.code - 100) / 64, (status.code - 100) % 64) := by
  rw [index, Nat.shiftRight_eq_div_pow]

theorem contains_eq (set : StatusCodeSet) (status : StatusCode) :
    (set.contains status : Outcome ε Bool) =
      if status.code < 612 then .ok (set.has status.code) else .panic := by
  unfold contains has
  simp only [index_eq]
  by_cases inside : (status.code - 100) / 64 < 8
  · rw [dif_pos inside, if_pos (by omega), Vector.getElem?_eq_getElem inside,
      and_twoPow_ne_zero _ (Nat.mod_lt _ (by decide))]
  · rw [dif_neg inside, if_neg (by omega)]

/-! ## Changes of a set -/

inductive Change where
  | insert (pattern : StatusPattern)
  | remove (status : StatusCode)

namespace Change

/-- The code whose bit is written. -/
def code : Change → Nat
  | .insert pattern => marked pattern
  | .remove status => status.code

/-- The bit that is written. -/
def bit : Change → Bool
  | .insert _ => true
  | .remove _ => false

def apply (set : StatusCodeSet) : Change → Outcome ε StatusCodeSet
  | .insert pattern => set.insert pattern
  | .remove status => (set.remove status).map Prod.snd

def written (change : Change) (word : BitVec 64) : BitVec 64 :=
  if change.bit then word ||| BitVec.twoPow 64 ((change.code - 100) % 64)
  else word &&& ~~~BitVec.twoPow 64 ((change.code - 100) % 64)

theorem getLsbD_written (change : Change) (word : BitVec 64) {i : Nat} (small : i < 64) :
    (change.written word).getLsbD i =
      if i = (change.code - 100) % 64 then change.bit else word.getLsbD i := by
  unfold written
  cases change.bit with
  | true | false =>
    simp [small]
    grind

theorem least_code (change : Change) : 100 ≤ change.code := by
  cases change with
  | remove status => exact status.least
  | insert pattern =>
    cases pattern with
    | code status => exact status.least
    | _ => decide

theorem apply_eq (set : StatusCodeSet) (change : Change) :
    (change.apply set : Outcome ε StatusCodeSet) =
      if inside : (change.code - 100) / 64 < 8 then
        .ok ⟨set.bits.set ((change.code - 100) / 64)
          (change.written set.bits[(change.code - 100) / 64])⟩
      else .panic := by
  cases change with
  | remove status =>
    by_cases inside : (status.code - 100) / 64 < 8
    · simp [apply, StatusCodeSet.remove, index_eq, code, inside, written, bit]
    · simp [apply, StatusCodeSet.remove, index_eq, code, inside]
  | insert pattern =>
    cases pattern with
    | code status =>
      simp only [apply, StatusCodeSet.insert, setBit, index_eq]
      rfl
    | _ => rfl

/-- A change writes the bit of its code; that of a class is the bit of a code
above 599. -/
theorem has_apply {set after : StatusCodeSet} {change : Change}
    (done : (change.apply set : Outcome ε StatusCodeSet) = .ok after) {code : Nat}
    (least : 100 ≤ code) :
    after.has code = if code = change.code then change.bit else set.has code := by
  have changeLeast := change.least_code
  rw [apply_eq] at done
  split at done
  · rename_i inside
    injection done with done
    rw [← done]
    unfold has
    by_cases same : (code - 100) / 64 = (change.code - 100) / 64
    · rw [same, Vector.getElem?_set_self, Vector.getElem?_eq_getElem inside]
      have sameBit : (code - 100) % 64 = (change.code - 100) % 64 ↔ code = change.code := by omega
      simp only [getLsbD_written _ _ (Nat.mod_lt _ (show 64 > 0 by decide)), sameBit]
    · grind
  · cases done

end Change

theorem has_insert {set after : StatusCodeSet} {pattern : StatusPattern}
    (done : (set.insert pattern : Outcome ε StatusCodeSet) = .ok after)
    {code : Nat} (least : 100 ≤ code) :
    after.has code = (set.has code || decide (code = marked pattern)) := by
  rw [@Change.has_apply ε set after (.insert pattern) done _ least]
  simp only [Change.code, Change.bit]
  grind

theorem has_new (code : Nat) : new.has code = false := by
  unfold has new
  by_cases inside : (code - 100) / 64 < 8
  · simp_all
  · rw [Vector.getElem?_eq_none (by omega)]

theorem has_of_isEmpty {set : StatusCodeSet} (empty : set.isEmpty = true)
    (code : Nat) : set.has code = false := by
  unfold has
  cases found : set.bits[(code - 100) / 64]? with
  | none => rfl
  | some word =>
    have member : word ∈ set.bits := Vector.mem_of_getElem? found
    have zero := (Vector.all_eq_true_iff_forall_mem.mp empty) word member
    rw [beq_iff_eq] at zero
    simp [zero]

theorem lt_of_has {set : StatusCodeSet} {code : Nat} (found : set.has code = true) :
    code < 612 := by
  by_contra large
  unfold has at found
  rw [Vector.getElem?_eq_none (by omega)] at found
  cases found

/-! ## Runs -/

/-- A set after changes, the last one first. -/
def run : List Change → Outcome ε StatusCodeSet
  | [] => .ok new
  | change :: earlier => (run earlier).bind change.apply

/-- The hundreds of the codes of a class. -/
def classOf : StatusPattern → Option Nat
  | .code _ => none
  | .informational => some 1
  | .success => some 2
  | .redirection => some 3
  | .clientError => some 4
  | .serverError => some 5

section Runs

variable (status : StatusCode)

/-- One of the patterns was inserted, and the code was not removed since. -/
def kept (patterns : StatusPattern → Bool) : List Change → Bool
  | [] => false
  | .insert pattern :: earlier => patterns pattern || kept patterns earlier
  | .remove removed :: earlier => removed ≠ status && kept patterns earlier

variable (changes : List Change)

def inserted : Bool := kept status (· = .code status) changes

def classInserted : Bool :=
  changes.any fun
    | .insert pattern => classOf pattern = some (status.code / 100)
    | .remove _ => false

/-- The bit of the code is set for a class. -/
def aliased : Bool :=
  kept status (fun pattern => pattern ≠ .code status ∧ marked pattern = status.code) changes

theorem has_run {after : StatusCodeSet}
    (done : (run changes : Outcome ε StatusCodeSet) = .ok after) :
    after.has status.code = (inserted status changes || aliased status changes) := by
  induction changes generalizing after with
  | nil =>
    cases done
    exact has_new _
  | cons change earlier ih =>
    obtain ⟨before, isBefore, isAfter⟩ := Outcome.bind_eq_ok_iff.mp done
    rw [Change.has_apply isAfter status.least, ih isBefore]
    cases change with
    | insert pattern =>
      have own : pattern = .code status → marked pattern = status.code := by
        rintro rfl
        rfl
      simp only [inserted, aliased, kept, Change.code, Change.bit]
      grind
    | remove removed =>
      have same : status.code = removed.code ↔ removed = status := by grind [cases StatusCode]
      simp only [inserted, aliased, kept, Change.code, Change.bit, same]
      grind

theorem run_cases :
    (∃ change ∈ changes, 612 ≤ change.code) ∧ (run changes : Outcome ε StatusCodeSet) = .panic ∨
      (∀ change ∈ changes, change.code < 612) ∧
        ∃ after, (run changes : Outcome ε StatusCodeSet) = .ok after := by
  induction changes with
  | nil => exact Or.inr ⟨by simp, new, rfl⟩
  | cons change earlier ih =>
    rcases ih with ⟨⟨large, member, outside⟩, panics⟩ | ⟨inside, before, isBefore⟩
    · exact Or.inl ⟨⟨large, List.mem_cons_of_mem _ member, outside⟩, by rw [run, panics]; rfl⟩
    · have least := change.least_code
      rw [run, isBefore, Outcome.bind_ok, Change.apply_eq]
      by_cases small : change.code < 612
      · exact Or.inr ⟨List.forall_mem_cons.mpr ⟨small, inside⟩, _, dif_pos (by omega)⟩
      · exact Or.inl ⟨⟨change, List.mem_cons_self, by omega⟩, dif_neg (by omega)⟩

/-- A set answers as a set of codes and classes exactly where no code lies
outside its words and no class has a say that its bit does not have. -/
theorem contains_after_iff :
    ((run changes).bind (contains · status) : Outcome ε Bool) =
        .ok (inserted status changes || classInserted status changes) ↔
      (∀ change ∈ changes, change.code < 612) ∧ status.code < 612 ∧
        (inserted status changes = true ∨
          classInserted status changes = aliased status changes) := by
  rcases @run_cases ε changes with ⟨⟨change, member, outside⟩, panics⟩ | ⟨inside, after, isAfter⟩
  · rw [panics, Outcome.bind_panic]
    simp only [reduceCtorEq, false_iff]
    intro ⟨within, _⟩
    exact absurd (within change member) (by omega)
  · rw [isAfter, Outcome.bind_ok, contains_eq, has_run status changes isAfter]
    by_cases small : status.code < 612
    · rw [if_pos small, Outcome.ok.injEq]
      grind
    · simp [small]

/-- The insert of a class leaves out its codes. -/
theorem contains_misses_class :
    ((run [.insert .success]).bind (contains · ⟨200, by decide, by decide⟩) : Outcome Unit Bool) ≠
      .ok (inserted ⟨200, by decide, by decide⟩ [.insert .success] ||
        classInserted ⟨200, by decide, by decide⟩ [.insert .success]) := by
  decide +kernel

end Runs

end StatusCodeSet

end Ophan.Http
