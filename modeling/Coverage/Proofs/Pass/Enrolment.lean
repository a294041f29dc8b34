import Coverage.Proofs.Pass.Site

/-!
# Enrolment

Sites are offered to a record one after the other. Each offer is accepted or refused; an event whose offer
is accepted is labelled with the key of its entry. The two arms of a `try` are counted together or not at
all, so there both labels are lost if one arm is refused.
-/

namespace Coverage.Pass

open Syntax Program

/-- What becomes of an event. -/
inductive Tag where
  /-- The key under which the event is counted, if it is. -/
  | label (event : Event) (key : Option Key)
  /-- A node in which no arm and no entry is counted. -/
  | silent (i : NodeId)
  deriving DecidableEq

def Tag.key? : Tag → Option Key
  | .label _ key => key
  | .silent _ => none

/-- The tag without its key. -/
def Tag.unlabelled : Tag → Tag
  | .label event _ => .label event none
  | .silent i => .silent i

@[simp]
theorem Tag.key?_label (event : Event) (key : Option Key) : (Tag.label event key).key? = key := rfl

@[simp]
theorem Tag.key?_silent (i : NodeId) : (Tag.silent i).key? = none := rfl

@[simp]
theorem Tag.unlabelled_label (event : Event) (key : Option Key) :
    (Tag.label event key).unlabelled = .label event none := rfl

def keysOf (tags : List Tag) : List Key := tags.filterMap Tag.key?

/-- What offering sites to a record leads to. -/
structure Enrolment where
  record : Metadata Kind
  tags : List Tag := []
  /-- The keys of offers that were refused. -/
  refused : List Key := []
  /-- The entries that were accepted, with the events that they count. -/
  accepted : List (Event × Entry Kind) := []

/-- One enrolment after another, which ends with the record of the second. -/
def Enrolment.andThen (e f : Enrolment) : Enrolment :=
  ⟨f.record, e.tags ++ f.tags, e.refused ++ f.refused, e.accepted ++ f.accepted⟩

def offer (m : Metadata Kind) (event : Event) (e : Entry Kind) : Enrolment :=
  if (m.add e).1 then ⟨(m.add e).2, [.label event (some e.key)], [], [(event, e)]⟩
  else ⟨(m.add e).2, [.label event none], [e.key], []⟩

def armEntry (group : Int) (a : Nat) (span : Span) : Entry Kind :=
  { key := keyOf .branch span, kind := .branch, span, group, arm := (a : Int) }

def offerArms (group : Int) : Nat → List (Event × Span) → Metadata Kind → Enrolment
  | _, [], m => ⟨m, [], [], []⟩
  | a, (event, span) :: arms, m =>
    let e := offer m event (armEntry group a span)
    e.andThen (offerArms group (a + 1) arms e.record)

/-- The two arms of a `try` are counted only together. -/
def settle (construct : Construct) (tags : List Tag) : List Tag :=
  if construct = .tryBody ∧ tags.any (·.key?.isNone) then tags.map Tag.unlabelled else tags

def enrol (plan : Plan) (m : Metadata Kind) : Site → Enrolment
  | .unit event kind span name =>
    if plan.counts kind then offer m event { key := keyOf kind span, kind, span, name }
    else ⟨m, [.label event none], [], []⟩
  | .fork construct span arms =>
    if plan.counts .branch then
      match m.addGroup construct arms.length span with
      | none => ⟨m, [], [], []⟩
      | some (group, m) =>
        let e := offerArms group.id 0 arms m
        { e with tags := settle construct e.tags }
    else ⟨m, arms.map fun arm ↦ .label arm.1 none, [], []⟩
  | .quiet event => ⟨m, [.label event none], [], []⟩
  | .silent i => ⟨m, [.silent i], [], []⟩

def enrolAll (plan : Plan) (m : Metadata Kind) : List Site → Enrolment
  | [] => ⟨m, [], [], []⟩
  | site :: rest =>
    let e := enrol plan m site
    e.andThen (enrolAll plan e.record rest)

@[simp]
theorem enrolAll_nil (plan : Plan) (m : Metadata Kind) : enrolAll plan m [] = ⟨m, [], [], []⟩ := rfl

@[simp]
theorem enrolAll_cons (plan : Plan) (m : Metadata Kind) (site : Site) (rest : List Site) :
    enrolAll plan m (site :: rest) = (enrol plan m site).andThen (enrolAll plan (enrol plan m site).record rest) := rfl

theorem enrolAll_append (plan : Plan) (m : Metadata Kind) (a b : List Site) :
    enrolAll plan m (a ++ b) = (enrolAll plan m a).andThen (enrolAll plan (enrolAll plan m a).record b) := by
  induction a generalizing m with
  | nil => simp [Enrolment.andThen]
  | cons site rest ih => simp [ih, Enrolment.andThen, List.append_assoc]

def hushTags (ids : List NodeId) : List Tag := ids.flatMap fun i ↦ [.label (.started i) none, .silent i]

theorem enrolAll_hush (plan : Plan) (m : Metadata Kind) (ids : List NodeId) :
    enrolAll plan m (hush ids) = ⟨m, hushTags ids, [], []⟩ := by
  induction ids with
  | nil => rfl
  | cons i ids ih =>
    change enrolAll plan m (.quiet (.started i) :: .silent i :: hush ids) = _
    simp [enrol, ih, Enrolment.andThen, hushTags]

end Coverage.Pass
