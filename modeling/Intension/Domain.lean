import Intension.Context.Order
import Intension.Context.Basic

/-!
# Intension.Domain

Domains are sets of contexts, the versions of something, kept in ascending
order.  A request is resolved against a domain: of the versions that refine to
it, the survivors, the best fit is the one that all survivors refine to.  When
there is no such version the near fits are the maximal survivors.

The best fit is found in a single pass (`Domain.scan`) that holds on to the
best survivor so far and to those not yet known to refine to it.
-/

namespace Intension

/-- A set of versions. -/
structure Domain where
  /-- The versions, in strictly ascending order. -/
  versions : List Context

namespace Domain

/-- No versions. -/
def empty : Domain := ⟨[]⟩

instance : EmptyCollection Domain := ⟨empty⟩

/-- The number of versions. -/
def size (d : Domain) : Nat := d.versions.length

/-- Whether there is no version. -/
def isEmpty (d : Domain) : Bool := d.versions.isEmpty

/-- Whether a version equal to `v` is there. -/
def contains (v : Context) (d : Domain) : Bool := d.versions.any (v == ·)

/-! ## changing -/

/-- Ascending versions with `v` in its place; of `v` and one equal to it, `choose` picks
the one that stays. -/
def place (choose : (old new : Context) → Context) (v : Context) : List Context → List Context
  | [] => [v]
  | w :: rest =>
    match compare v w with
    | .lt => v :: w :: rest
    | .eq => choose w v :: rest
    | .gt => w :: place choose v rest

/-- The domain with `v`; one equal to it that is there stays. -/
def insert (v : Context) (d : Domain) : Domain := ⟨place (fun old _ => old) v d.versions⟩

/-- The domain with `v`, in the place of one equal to it. -/
def put (v : Context) (d : Domain) : Domain := ⟨place (fun _ new => new) v d.versions⟩

/-- The domain without the version equal to `v`. -/
def erase (v : Context) (d : Domain) : Domain := ⟨d.versions.filter fun w => !(v == w)⟩

/-- The domain with `new` for the version equal to `old`, if there is one. -/
def replace? (old new : Context) (d : Domain) : Option Domain :=
  if d.contains old then some ((d.erase old).insert new) else none

/-- The domain with more versions, each inserted in turn. -/
def extend (vs : List Context) (d : Domain) : Domain := vs.foldl (fun d v => d.insert v) d

/-- The domain of some versions; of equal ones it holds the last. -/
def ofList (vs : List Context) : Domain := vs.foldl (fun d v => d.put v) empty

/-! ## the scan -/

/-- Where a scan stands. -/
structure Scan where
  /-- The best survivor so far. -/
  best : Context
  /-- The survivors that were passed over, but for those seen to refine to the best of
  their time. -/
  seconds : List Context

/-- The scan after one more survivor. -/
def Scan.step (s : Scan) (v : Context) : Scan :=
  if s.best.refines v then ⟨v, s.best :: s.seconds⟩
  else if v.refines s.best then s
  else ⟨s.best, v :: s.seconds⟩

/-- Whether the best of a scan is the best of all. -/
def Scan.isUnique (s : Scan) : Bool := s.seconds.all (·.refines s.best)

/-- The versions that refine to a request. -/
def survivors (d : Domain) (request : Context) : List Context :=
  d.versions.filter (·.refines request)

/-- One pass over the survivors; `none` if there are none. -/
def scan (d : Domain) (request : Context) : Option Scan :=
  match d.survivors request with
  | [] => none
  | v :: rest => some (rest.foldl Scan.step ⟨v, []⟩)

/-! ## resolving -/

/-- The survivor that all survivors refine to. -/
def best? (d : Domain) (request : Context) : Option Context :=
  match d.scan request with
  | none => none
  | some s => if s.isUnique then some s.best else none

/-- Whether a context is strictly below one of some others. -/
def isBelow (c : Context) (others : List Context) : Bool :=
  others.any fun o => c.refines o && !o.refines c

/-- The best fit alone if there is one, and else the survivors that are not strictly below
another, in ascending order. -/
def near (d : Domain) (request : Context) : List Context :=
  match d.scan request with
  | none => []
  | some s =>
    if s.isUnique then [s.best]
    else
      let candidates := (s.best :: s.seconds).mergeSort fun a b => (compare a b).isLE
      candidates.filter fun c => !isBelow c candidates

/-- No version is the one best fit for a request. -/
structure NoBest where
  request : Context

/-- The wording of the error. -/
def NoBest.message (e : NoBest) : String :=
  "resolution error: no unique best fit for " ++ e.request.text.str

/-- The best fit, where there must be one. -/
def requireBest (d : Domain) (request : Context) : Except NoBest Context :=
  match d.best? request with
  | some v => .ok v
  | none => .error ⟨request⟩

end Domain

/-- What a request comes to. -/
inductive Resolution where
  /-- The best fit. -/
  | best (version : Context)
  /-- The near fits, where none is best. -/
  | near (versions : List Context)
  /-- No version refines to the request. -/
  | nothing

/-- The outcome of a request. -/
def Domain.resolve (d : Domain) (request : Context) : Resolution :=
  match d.best? request with
  | some v => .best v
  | none =>
    match d.near request with
    | [] => .nothing
    | vs => .near vs

end Intension
