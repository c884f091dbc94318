import Mathlib.Data.Fintype.EquivFin
import Ophan.Lib.Utf8

/-!
# HTTP methods and sets of them

A set of methods is a bit mask of the nine standard methods and a list of
custom names.  The mask with exactly the nine bits and no custom name stands
for every method, the custom ones included.
-/

namespace Ophan.Http

inductive Method where
  | get
  | post
  | put
  | delete
  | patch
  | head
  | options
  | trace
  | connect
  | extension (name : Bytes)
  deriving DecidableEq, Repr

/-- `Method::as_str` -/
def Method.name : Method → Bytes
  | .get => bytes "GET"
  | .post => bytes "POST"
  | .put => bytes "PUT"
  | .delete => bytes "DELETE"
  | .patch => bytes "PATCH"
  | .head => bytes "HEAD"
  | .options => bytes "OPTIONS"
  | .trace => bytes "TRACE"
  | .connect => bytes "CONNECT"
  | .extension name => name

/-- A mask of standard methods. -/
structure HttpMethod where
  bits : UInt16
  deriving DecidableEq, Repr

namespace HttpMethod

def none : HttpMethod := ⟨0⟩
def get : HttpMethod := ⟨(1 : UInt16) <<< 0⟩
def post : HttpMethod := ⟨(1 : UInt16) <<< 1⟩
def put : HttpMethod := ⟨(1 : UInt16) <<< 2⟩
def delete : HttpMethod := ⟨(1 : UInt16) <<< 3⟩
def patch : HttpMethod := ⟨(1 : UInt16) <<< 4⟩
def head : HttpMethod := ⟨(1 : UInt16) <<< 5⟩
def options : HttpMethod := ⟨(1 : UInt16) <<< 6⟩
def trace : HttpMethod := ⟨(1 : UInt16) <<< 7⟩
def connect : HttpMethod := ⟨(1 : UInt16) <<< 8⟩

def all : HttpMethod :=
  ⟨get.bits ||| post.bits ||| put.bits ||| delete.bits ||| patch.bits |||
    head.bits ||| options.bits ||| trace.bits ||| connect.bits⟩

def isEmpty (mask : HttpMethod) : Bool := mask.bits = 0

def contains (mask other : HttpMethod) : Bool := mask.bits &&& other.bits = other.bits

def fromBytes (method : Bytes) : Option HttpMethod :=
  if method = bytes "GET" then some get
  else if method = bytes "POST" then some post
  else if method = bytes "PUT" then some put
  else if method = bytes "DELETE" then some delete
  else if method = bytes "PATCH" then some patch
  else if method = bytes "HEAD" then some head
  else if method = bytes "OPTIONS" then some options
  else if method = bytes "TRACE" then some trace
  else if method = bytes "CONNECT" then some connect
  else Option.none

/-- `From<&str>`: the upper and the lower case names, and no bit for any other
text. -/
def ofStr (method : Bytes) : HttpMethod :=
  if method = bytes "GET" ∨ method = bytes "get" then get
  else if method = bytes "POST" ∨ method = bytes "post" then post
  else if method = bytes "PUT" ∨ method = bytes "put" then put
  else if method = bytes "DELETE" ∨ method = bytes "delete" then delete
  else if method = bytes "PATCH" ∨ method = bytes "patch" then patch
  else if method = bytes "HEAD" ∨ method = bytes "head" then head
  else if method = bytes "OPTIONS" ∨ method = bytes "options" then options
  else if method = bytes "TRACE" ∨ method = bytes "trace" then trace
  else if method = bytes "CONNECT" ∨ method = bytes "connect" then connect
  else none

end HttpMethod

structure HttpMethodSet where
  standard : HttpMethod
  custom : List Bytes
  deriving DecidableEq, Repr

namespace HttpMethodSet

def new (standard : HttpMethod) : HttpMethodSet := { standard := standard, custom := [] }

def all : HttpMethodSet := { standard := HttpMethod.all, custom := [] }

def addStandard (set : HttpMethodSet) (method : HttpMethod) : HttpMethodSet :=
  { set with standard := ⟨set.standard.bits ||| method.bits⟩ }

def containsBytes (set : HttpMethodSet) (method : Bytes) : Bool :=
  match HttpMethod.fromBytes method with
  | some standard => set.standard.contains standard
  | none => set.custom.any (· = method)

def containsMethod (set : HttpMethodSet) : Method → Bool
  | .get => set.standard.contains HttpMethod.get
  | .post => set.standard.contains HttpMethod.post
  | .put => set.standard.contains HttpMethod.put
  | .delete => set.standard.contains HttpMethod.delete
  | .patch => set.standard.contains HttpMethod.patch
  | .head => set.standard.contains HttpMethod.head
  | .options => set.standard.contains HttpMethod.options
  | .trace => set.standard.contains HttpMethod.trace
  | .connect => set.standard.contains HttpMethod.connect
  | .extension name => set.containsBytes name

def isAny (set : HttpMethodSet) : Bool := set.standard = HttpMethod.all && set.custom.isEmpty

def isEmpty (set : HttpMethodSet) : Bool := set.custom.isEmpty && set.standard.isEmpty

def without (set other : HttpMethodSet) : HttpMethodSet :=
  if other.isAny then
    new HttpMethod.none
  else
    { standard := ⟨set.standard.bits &&& ~~~other.standard.bits⟩
      custom := set.custom.filter fun name => !other.custom.contains name }

/-- Whether a method belongs to both sets; a set that accepts any method
intersects every non-empty set. -/
def intersects (set other : HttpMethodSet) : Bool :=
  if set.isEmpty || other.isEmpty then
    false
  else if set.isAny || other.isAny then
    true
  else
    !(HttpMethod.isEmpty ⟨set.standard.bits &&& other.standard.bits⟩) ||
      set.custom.any fun name => other.custom.contains name

/-- A method that the set accepts, by itself or because it accepts any. -/
def Allows (set : HttpMethodSet) (method : Method) : Prop :=
  set.isAny = true ∨ set.containsMethod method = true

def Disjoint (set other : HttpMethodSet) : Prop :=
  ∀ method, set.Allows method → ¬other.Allows method

/-- Some custom name of the set is not the name of a standard method. -/
def NamesCustom (set : HttpMethodSet) : Prop :=
  ∃ name ∈ set.custom, HttpMethod.fromBytes name = none

/-- Of the first set exactly the nine standard methods are not in any of the
others, and none of its custom names. -/
def LeavesStandard (set : HttpMethodSet) (taken : List HttpMethodSet) : Prop :=
  taken.foldl (fun bits other => bits &&& ~~~other.standard.bits)
      set.standard.bits = HttpMethod.all.bits ∧
    ∀ name ∈ set.custom, ∃ other ∈ taken, name ∈ other.custom

end HttpMethodSet

/-! ## Members of a set -/

/-- The bit of a standard method, or the name of a custom one. -/
def Method.member : Method → HttpMethod ⊕ Bytes
  | .get => .inl HttpMethod.get
  | .post => .inl HttpMethod.post
  | .put => .inl HttpMethod.put
  | .delete => .inl HttpMethod.delete
  | .patch => .inl HttpMethod.patch
  | .head => .inl HttpMethod.head
  | .options => .inl HttpMethod.options
  | .trace => .inl HttpMethod.trace
  | .connect => .inl HttpMethod.connect
  | .extension name =>
    match HttpMethod.fromBytes name with
    | some standard => .inl standard
    | none => .inr name

def Method.isStandard (method : Method) : Bool := method.member.isLeft

def HttpMethod.Standard (mask : HttpMethod) : Prop :=
  mask ∈ [get, post, put, delete, patch, head, options, trace, connect]

namespace HttpMethod

variable {mask : HttpMethod}

theorem fromBytes_standard {name : Bytes} (found : fromBytes name = some mask) : mask.Standard := by
  unfold fromBytes at found
  repeat' split at found
  all_goals simp_all [Standard]

theorem Standard.bits_spec (standard : mask.Standard) :
    mask.bits ≠ 0 ∧ all.bits &&& mask.bits = mask.bits ∧ all.bits ||| mask.bits = all.bits := by
  revert mask
  unfold Standard
  decide

theorem ofStr_standard (name : Bytes) : ofStr name = none ∨ (ofStr name).Standard := by
  unfold ofStr
  repeat' split
  all_goals simp [Standard]

theorem all_or_ofStr (name : Bytes) : all.bits ||| (ofStr name).bits = all.bits := by
  rcases ofStr_standard name with isNone | standard
  · rw [isNone]
    rfl
  · exact standard.bits_spec.2.2

theorem and_all_of_standard {bits : UInt16}
    (each : ∀ mask : HttpMethod, mask.Standard → bits &&& mask.bits = mask.bits) :
    bits &&& all.bits = all.bits := by
  have distributes (first second : UInt16) :
      bits &&& (first ||| second) = bits &&& first ||| bits &&& second := by
    apply UInt16.toBitVec_inj.mp
    ext i
    simp [Bool.and_or_distrib_left]
  simp only [Standard, List.forall_mem_cons] at each
  simp only [all, distributes, each]

end HttpMethod

theorem Method.member_spec (method : Method) :
    match method.member with
    | .inl mask => mask.Standard
    | .inr name => HttpMethod.fromBytes name = none := by
  cases method with
  | extension name =>
    rw [Method.member]
    cases found : HttpMethod.fromBytes name with
    | some mask => exact HttpMethod.fromBytes_standard found
    | none => exact found
  | _ => simp [Method.member, HttpMethod.Standard]

theorem Method.member_extension {name : Bytes} (custom : HttpMethod.fromBytes name = none) :
    Method.member (.extension name) = .inr name := by
  rw [Method.member, custom]

theorem Method.member_standard {method : Method} {mask : HttpMethod}
    (found : method.member = .inl mask) : mask.Standard := by
  have spec := method.member_spec
  rwa [found] at spec

theorem Method.member_custom {method : Method} {name : Bytes} (found : method.member = .inr name) :
    HttpMethod.fromBytes name = none := by
  have spec := method.member_spec
  rwa [found] at spec

namespace HttpMethodSet

variable {method : Method}

theorem containsMethod_eq (set : HttpMethodSet) (method : Method) :
    set.containsMethod method =
      match method.member with
      | .inl mask => set.standard.contains mask
      | .inr name => set.custom.any (· = name) := by
  cases method with
  | extension name =>
    rw [containsMethod, containsBytes, Method.member]
    cases HttpMethod.fromBytes name <;> rfl
  | _ => rfl

theorem containsMethod_standard {mask : HttpMethod}
    (found : method.member = .inl mask) (set : HttpMethodSet) :
    set.containsMethod method = true ↔ set.standard.bits &&& mask.bits = mask.bits := by
  simp [containsMethod_eq, found, HttpMethod.contains]

theorem containsMethod_custom {name : Bytes}
    (found : method.member = .inr name) (set : HttpMethodSet) :
    set.containsMethod method = true ↔ name ∈ set.custom := by
  simp [containsMethod_eq, found]

theorem isAny_iff (set : HttpMethodSet) :
    set.isAny = true ↔ set.standard = HttpMethod.all ∧ set.custom = [] := by
  simp [isAny]

variable {set other : HttpMethodSet}

theorem containsMethod_of_isAny (any : set.isAny = true) {mask : HttpMethod}
    (found : method.member = .inl mask) :
    set.containsMethod method = true := by
  rw [containsMethod_standard found, ((isAny_iff set).mp any).1]
  exact (Method.member_standard found).bits_spec.2.1

theorem exists_standard_of_allows (unnamed : ¬set.NamesCustom) (allowed : set.Allows method) :
    ∃ standard mask, Method.member standard = .inl mask ∧ set.containsMethod standard = true := by
  rcases allowed with any | contained
  · exact ⟨.get, _, rfl, containsMethod_of_isAny any rfl⟩
  · cases found : method.member with
    | inl mask => exact ⟨method, mask, found, contained⟩
    | inr name =>
      have named := (containsMethod_custom found set).mp contained
      exact absurd ⟨name, named, Method.member_custom found⟩ unnamed

theorem Disjoint.symm (disjoint : set.Disjoint other) : other.Disjoint set :=
  fun method allowed allowedToo => disjoint method allowedToo allowed

/-- A set is disjoint from another when it contains none of the methods the
other accepts.  If it accepts any method, the other must not name a custom
one. -/
theorem disjoint_of_avoids (avoids : ∀ method, set.containsMethod method = true →
      ¬other.Allows method)
    (unnamed : set.isAny = true → ¬other.NamesCustom) :
    set.Disjoint other := by
  rintro method (any | contained) allowed
  · obtain ⟨standard, mask, found, contained⟩ := exists_standard_of_allows (unnamed any) allowed
    exact avoids standard (containsMethod_of_isAny any found) (.inr contained)
  · exact avoids method contained allowed

section Shrinking

variable {set' other' : HttpMethodSet}

theorem Disjoint.shrink_any (disjoint : set.Disjoint other)
    (smaller : ∀ method, set'.containsMethod method = true → set.containsMethod method = true)
    (smallerOther : ∀ method, other'.containsMethod method = true →
      other.containsMethod method = true)
    (unnamed : other.isAny = true ∨ ¬set.NamesCustom) (any : other'.isAny = true) :
    ¬set'.Allows method := by
  intro allowed
  rcases unnamed with anyBefore | unnamedBefore
  · rcases allowed with anyToo | contained
    · exact disjoint .get (.inr (smaller _ (containsMethod_of_isAny anyToo rfl))) (.inl anyBefore)
    · exact disjoint method (.inr (smaller _ contained)) (.inl anyBefore)
  · have unnamedNow : ¬set'.NamesCustom := by
      rintro ⟨name, named, custom⟩
      have found := Method.member_extension custom
      rw [← containsMethod_custom found] at named
      exact unnamedBefore ⟨name, (containsMethod_custom found set).mp (smaller _ named), custom⟩
    obtain ⟨standard, mask, found, contained⟩ := exists_standard_of_allows unnamedNow allowed
    exact disjoint standard (.inr (smaller _ contained))
      (.inr (smallerOther _ (containsMethod_of_isAny any found)))

/-- Shrinking two disjoint sets keeps them disjoint, as long as a set that
comes to accept any method meets no custom name. -/
theorem Disjoint.shrink (disjoint : set.Disjoint other)
    (smaller : ∀ method, set'.containsMethod method = true → set.containsMethod method = true)
    (smallerOther : ∀ method, other'.containsMethod method = true →
      other.containsMethod method = true)
    (unnamed : set'.isAny = true → set.isAny = true ∨ ¬other.NamesCustom)
    (unnamedOther : other'.isAny = true → other.isAny = true ∨ ¬set.NamesCustom) :
    set'.Disjoint other' := by
  rintro method allowed (any | contained)
  · exact disjoint.shrink_any smaller smallerOther (unnamedOther any) any allowed
  · rcases allowed with any | containedToo
    · exact disjoint.symm.shrink_any smallerOther smaller (unnamed any) any (.inr contained)
    · exact disjoint method (.inr (smaller _ containedToo)) (.inr (smallerOther _ contained))

end Shrinking

/-! ## Intersection and difference -/

theorem not_allows_of_isEmpty (empty : set.isEmpty = true) (method : Method) :
    ¬set.Allows method := by
  simp only [isEmpty, HttpMethod.isEmpty, Bool.and_eq_true,
    List.isEmpty_iff, decide_eq_true_eq] at empty
  obtain ⟨noCustom, noStandard⟩ := empty
  rintro (any | contained)
  · rw [((isAny_iff set).mp any).1] at noStandard
    revert noStandard
    decide
  · cases found : method.member with
    | inl mask =>
      rw [containsMethod_standard found, noStandard] at contained
      exact (Method.member_standard found).bits_spec.1 (by simpa using contained.symm)
    | inr name =>
      rw [containsMethod_custom found, noCustom] at contained
      simp at contained

/-- Every standard method is a bit of its own. -/
theorem containsMethod_bit {mask : HttpMethod} (found : method.member = .inl mask) :
    ∃ i < 16, ∀ set : HttpMethodSet,
      set.containsMethod method = true ↔ set.standard.bits.toBitVec.getLsbD i = true := by
  have isBit : ∃ i < 16, mask.bits.toBitVec = BitVec.twoPow 16 i ∧ 0#16 ≠ BitVec.twoPow 16 i := by
    have standard := Method.member_standard found
    clear found
    revert mask
    unfold HttpMethod.Standard
    decide +kernel
  obtain ⟨i, inside, isMask, notZero⟩ := isBit
  refine ⟨i, inside, fun set => ?_⟩
  rw [containsMethod_standard found, ← UInt16.toBitVec_inj, UInt16.toBitVec_and, isMask,
    BitVec.and_twoPow]
  split
  next isSet => simp [isSet]
  next isSet => simp [isSet, notZero]

theorem containsMethod_without_iff (notAny : ¬ other.isAny = true) :
    (set.without other).containsMethod method = true ↔
      set.containsMethod method = true ∧ ¬ other.containsMethod method = true := by
  rw [without, if_neg notAny]
  cases found : method.member with
  | inl mask =>
    obtain ⟨i, inside, isBit⟩ := containsMethod_bit found
    simp [isBit, inside]
  | inr name => simp [containsMethod_custom found]

/-- A difference contains methods of the first set only, and none that the
second accepts. -/
theorem containsMethod_without (contained : (set.without other).containsMethod method = true) :
    set.containsMethod method = true ∧ ¬other.Allows method := by
  by_cases any : other.isAny = true
  · have nothing : ¬(new HttpMethod.none).Allows method := not_allows_of_isEmpty rfl method
    rw [without, if_pos any] at contained
    exact absurd (.inr contained) nothing
  · rw [containsMethod_without_iff any] at contained
    exact ⟨contained.1, not_or.mpr ⟨any, contained.2⟩⟩

/-- No bit of a standard method and no name of a custom one. -/
def Silent (set : HttpMethodSet) : Prop :=
  (∀ mask : HttpMethod, mask.Standard → set.standard.contains mask = false) ∧ ¬set.NamesCustom

/-- What both sets list: all of the one if the other accepts any method. -/
def shared (set other : HttpMethodSet) : HttpMethodSet :=
  if set.isAny then other
  else if other.isAny then set
  else
    { standard := ⟨set.standard.bits &&& other.standard.bits⟩
      custom := set.custom.filter fun name => other.custom.contains name }

theorem exists_member_standard {mask : HttpMethod} (standard : mask.Standard) :
    ∃ method : Method, method.member = .inl mask := by
  have each : ∀ mask ∈ [HttpMethod.get, .post, .put, .delete, .patch, .head, .options, .trace,
      .connect], ∃ method ∈ [Method.get, .post, .put, .delete, .patch, .head, .options, .trace,
      .connect], method.member = .inl mask := by
    decide +kernel
  obtain ⟨method, -, isMember⟩ := each mask standard
  exact ⟨method, isMember⟩

theorem silent_iff : set.Silent ↔ ∀ method, ¬set.Allows method := by
  constructor
  · rintro ⟨noStandard, unnamed⟩ method allowed
    obtain ⟨standard, mask, found, contained⟩ := exists_standard_of_allows unnamed allowed
    rw [containsMethod_eq, found] at contained
    exact Bool.eq_false_iff.mp (noStandard mask (Method.member_standard found)) contained
  · intro nothing
    refine ⟨fun mask standard => Bool.eq_false_iff.mpr fun contained => ?_, ?_⟩
    · obtain ⟨method, found⟩ := exists_member_standard standard
      exact nothing method (.inr (by rw [containsMethod_eq, found]; exact contained))
    · rintro ⟨name, named, custom⟩
      have found := Method.member_extension custom
      exact nothing _ (.inr ((containsMethod_custom found set).mpr named))

theorem not_silent_iff : ¬set.Silent ↔ ∃ method, set.containsMethod method = true := by
  rw [silent_iff, not_forall_not]
  constructor
  · rintro ⟨method, any | contained⟩
    · exact ⟨.get, containsMethod_of_isAny any rfl⟩
    · exact ⟨method, contained⟩
  · rintro ⟨method, contained⟩
    exact ⟨method, .inr contained⟩

theorem not_isEmpty_of_isAny (any : set.isAny = true) : set.isEmpty = false :=
  Bool.eq_false_iff.mpr fun empty => not_allows_of_isEmpty empty .get (.inl any)

theorem intersects_eq : set.intersects other = !(set.shared other).isEmpty := by
  rw [intersects, shared]
  by_cases any : set.isAny = true
  · simp [any, not_isEmpty_of_isAny any]
  · by_cases anyOther : other.isAny = true
    · simp [any, anyOther, not_isEmpty_of_isAny anyOther]
    · rw [if_neg any, if_neg anyOther]
      split
      next empty =>
        simp only [isEmpty, HttpMethod.isEmpty, Bool.or_eq_true, Bool.and_eq_true,
          List.isEmpty_iff, decide_eq_true_eq] at empty
        rcases empty with empty | empty <;> simp [isEmpty, HttpMethod.isEmpty, empty]
      next =>
        rw [Bool.eq_iff_iff]
        simp [any, anyOther, isEmpty, HttpMethod.isEmpty, or_comm]

theorem exists_allows_iff :
    (∃ method, set.Allows method ∧ other.Allows method) ↔ ¬(set.shared other).Silent := by
  rw [shared]
  split_ifs with any anyOther
  · rw [silent_iff, not_forall_not]
    exact exists_congr fun method => and_iff_right (.inl any)
  · rw [silent_iff, not_forall_not]
    exact exists_congr fun method => and_iff_left (.inl anyOther)
  · rw [not_silent_iff]
    refine exists_congr fun method => ?_
    simp only [Allows, any, anyOther]
    cases found : method.member with
    | inl mask =>
      obtain ⟨i, inside, isBit⟩ := containsMethod_bit found
      simp [isBit]
    | inr name => simp [containsMethod_custom found]

theorem disjoint_of_not_intersects
    (separate : set.intersects other = false) : set.Disjoint other := by
  rw [intersects_eq, Bool.not_eq_false'] at separate
  have silent := silent_iff.mpr (not_allows_of_isEmpty separate)
  intro method allowed allowedToo
  exact exists_allows_iff.mp ⟨method, allowed, allowedToo⟩ silent

theorem containsMethod_foldl_without :
    ∀ {taken : List HttpMethodSet} {set : HttpMethodSet},
      (taken.foldl without set).containsMethod method = true →
      set.containsMethod method = true ∧ ∀ other ∈ taken, ¬other.Allows method := by
  intro taken
  induction taken with
  | nil => simp
  | cons first rest ih =>
    intro set contained
    obtain ⟨inDifference, notInRest⟩ := ih contained
    obtain ⟨inSet, notInFirst⟩ := containsMethod_without inDifference
    exact ⟨inSet, List.forall_mem_cons.mpr ⟨notInFirst, notInRest⟩⟩

private theorem foldl_andNot_and_self (start : UInt16) :
    ∀ taken : List HttpMethodSet,
      taken.foldl (fun bits other => bits &&& ~~~other.standard.bits) start &&& start =
        taken.foldl (fun bits other => bits &&& ~~~other.standard.bits)
          start := by
  intro taken
  induction taken generalizing start with
  | nil => simp
  | cons first rest ih => grind

/-- A chain of differences accepts any method only if it leaves exactly the
nine standard methods. -/
theorem leavesStandard_of_isAny :
    ∀ {taken : List HttpMethodSet} {set : HttpMethodSet},
      (taken.foldl without set).isAny = true → set.LeavesStandard taken := by
  intro taken
  induction taken with
  | nil =>
    intro set any
    obtain ⟨standard, custom⟩ := (isAny_iff set).mp any
    simp [LeavesStandard, standard, custom]
  | cons first rest ih =>
    intro set any
    have later := ih any
    by_cases anyFirst : first.isAny = true
    · rw [without, if_pos anyFirst] at later
      have impossible := foldl_andNot_and_self (new HttpMethod.none).standard.bits rest
      rw [later.1] at impossible
      exact absurd impossible (by decide)
    · rw [without, if_neg anyFirst] at later
      refine ⟨later.1, ?_⟩
      intro name member
      by_cases inFirst : name ∈ first.custom
      · exact ⟨first, by simp, inFirst⟩
      · obtain ⟨other, inRest, named⟩ := later.2 name (by simp [member, inFirst])
        exact ⟨other, List.mem_cons_of_mem _ inRest, named⟩

/-- A custom method with a name that is not among the given ones. -/
theorem exists_fresh (names : List Bytes) :
    ∃ name, Method.member (.extension name) = .inr name ∧ name ∉ names := by
  obtain ⟨name, isFresh⟩ := Infinite.exists_notMem_finset (names ++ [bytes "GET", bytes "POST",
    bytes "PUT", bytes "DELETE", bytes "PATCH", bytes "HEAD", bytes "OPTIONS", bytes "TRACE",
    bytes "CONNECT"]).toFinset
  simp only [List.mem_toFinset, List.mem_append, List.mem_cons, List.not_mem_nil, or_false,
    not_or] at isFresh
  exact ⟨name, Method.member_extension (by simp [HttpMethod.fromBytes, isFresh]), isFresh.1⟩

/-- What `without` computes is the difference unless it leaves the nine standard methods
of a set that has more, or takes something away from the set of every method. -/
theorem without_exact_iff :
    (∀ method, (set.without other).Allows method ↔ set.Allows method ∧ ¬other.Allows method) ↔
      other.isAny = true ∨
        if set.isAny then other.Silent else ¬set.LeavesStandard [other] := by
  by_cases anyOther : other.isAny = true
  · refine iff_of_true (fun method => iff_of_false ?_ ?_) (Or.inl anyOther)
    · rw [without, if_pos anyOther]
      exact not_allows_of_isEmpty rfl method
    · exact fun both => both.2 (.inl anyOther)
  have contains (method) := @containsMethod_without_iff method set other anyOther
  rw [or_iff_right anyOther]
  split
  next any =>
    obtain ⟨standard, custom⟩ := (isAny_iff set).mp any
    constructor
    · intro exactly
      by_contra heard
      obtain ⟨taken, contained⟩ := not_silent_iff.mp heard
      obtain ⟨name, found, isFresh⟩ := exists_fresh other.custom
      have allowed : (set.without other).Allows (.extension name) := (exactly _).mpr
        ⟨.inl any, not_or.mpr ⟨anyOther, mt (containsMethod_custom found other).mp isFresh⟩⟩
      rcases allowed with anyLeft | containedLeft
      · exact ((exactly taken).mp (.inl anyLeft)).2 (.inr contained)
      · rw [contains, containsMethod_custom found, custom] at containedLeft
        cases containedLeft.1
    · intro silent method
      have nothing := silent_iff.mp silent
      refine iff_of_true (.inl ((isAny_iff _).mpr ?_)) ⟨.inl any, nothing method⟩
      have isAll := HttpMethod.and_all_of_standard fun mask isStandard => by
        obtain ⟨method, found⟩ := exists_member_standard isStandard
        exact (containsMethod_standard found _).mp
          ((contains method).mpr ⟨containsMethod_of_isAny any found, mt .inr (nothing method)⟩)
      simp only [without, if_neg anyOther, standard] at isAll ⊢
      rw [UInt16.and_comm, ← UInt16.and_assoc, UInt16.and_self] at isAll
      exact ⟨congrArg HttpMethod.mk isAll, by simp [custom]⟩
  next notAny =>
    constructor
    · intro exactly leaves
      obtain ⟨name, found, isFresh⟩ := exists_fresh set.custom
      have anyLeft : (set.without other).isAny = true := by
        simp only [LeavesStandard, List.foldl_cons, List.foldl_nil, List.mem_singleton,
          exists_eq_left] at leaves
        rw [isAny_iff, without, if_neg anyOther]
        refine ⟨congrArg HttpMethod.mk leaves.1, List.filter_eq_nil_iff.mpr fun name named => ?_⟩
        simp [leaves.2 name named]
      rcases ((exactly (.extension name)).mp (.inl anyLeft)).1 with any | contained
      · exact notAny any
      · exact isFresh ((containsMethod_custom found set).mp contained)
    · intro leaves method
      have notAnyLeft : ¬(set.without other).isAny = true := fun anyLeft =>
        leaves (@leavesStandard_of_isAny [other] set anyLeft)
      simp [Allows, notAny, anyOther, notAnyLeft, contains]

/-- The operations on sets are those on the methods that they accept, but for the set of
every method and for sets that list what is no method of its kind. -/
theorem algebra_exact_iff (set other : HttpMethodSet) :
    ((∀ method, (set.without other).Allows method ↔ set.Allows method ∧ ¬other.Allows method) ∧
      (set.intersects other = true ↔ ∃ method, set.Allows method ∧ other.Allows method)) ↔
    (other.isAny = true ∨ if set.isAny then other.Silent else ¬set.LeavesStandard [other]) ∧
      ((set.shared other).isEmpty = true ∨ ¬(set.shared other).Silent) := by
  refine and_congr without_exact_iff ?_
  rw [intersects_eq, exists_allows_iff, Bool.not_eq_true']
  cases empty : (set.shared other).isEmpty with
  | true => simpa using silent_iff.mpr (not_allows_of_isEmpty empty)
  | false => simp

/-- A custom method stays in the set of every method, and a standard one takes all
custom methods with it. -/
theorem any_without_custom :
    (all.without ⟨HttpMethod.none, [bytes "PURGE"]⟩).Allows (.extension (bytes "PURGE")) ∧
      ¬(all.without (new HttpMethod.post)).Allows (.extension (bytes "PURGE")) := by
  unfold Allows
  decide +kernel

theorem addStandard_all (name : Bytes) : all.addStandard (HttpMethod.ofStr name) = all := by
  rw [addStandard]
  simp only [all, HttpMethod.all_or_ofStr]

/-- The set of all standard methods contains just these, though it stands for
every method. -/
theorem containsMethod_all (method : Method) : all.containsMethod method = method.isStandard := by
  rw [Bool.eq_iff_iff, Method.isStandard]
  cases found : method.member with
  | inl mask =>
    rw [containsMethod_standard found]
    have contained := (Method.member_standard found).bits_spec.2.1
    simpa [all] using contained
  | inr name =>
    rw [containsMethod_custom found]
    simp [all]

end HttpMethodSet

end Ophan.Http
