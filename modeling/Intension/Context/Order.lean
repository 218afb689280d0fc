import Intension.Context.Basic

/-!
# Intension.Context.Order

The two orders on contexts.  Neither sees children without a base, so they
apply to trees that still hold empty nodes as well.

* `Context.cmp` is the total order: first the bases, an absent one below any
  other, then the children pairwise, dimension before content.  A tree whose
  children run out first is the smaller one if the counts differ.
* `Context.refines` is the partial order: all that is defined on the left is
  defined on the right, each base refining to the one at the same place.
-/

namespace Intension.Context

/-- The children that hold a base. -/
def live (children : List (Dimension × Context)) : List (Dimension × Context) :=
  children.filter fun e => !e.2.isEmpty

/-! ## the total order -/

mutual

/-- The total order of contexts. -/
def cmp (a b : Context) : Ordering :=
  match a with
  | ⟨base, children, count⟩ =>
    (compare base b.base).then (cmpChildren (compare count b.baseCount) children (live b.children))

/-- The order of children, the right ones already without empty nodes.  `byCount` is the
order of the whole counts, which settles what is left over at the end. -/
def cmpChildren (byCount : Ordering) :
    List (Dimension × Context) → List (Dimension × Context) → Ordering
  | [], [] => .eq
  | [], _ :: _ => if byCount == .eq then .eq else .lt
  | (d, c) :: rest, others =>
    if c.isEmpty then cmpChildren byCount rest others
    else match others with
      | [] => if byCount == .eq then .eq else .gt
      | (e, k) :: others =>
        (compare d e).then ((cmp c k).then (cmpChildren byCount rest others))

end

instance : Ord Context := ⟨cmp⟩

/-- Equality of contexts is that of their total order. -/
instance : BEq Context := ⟨fun a b => compare a b == .eq⟩

/-! ## refinement -/

mutual

/-- Whether everything that `a` defines is matched by `b`. -/
def refinesView (a b : Context) : Bool :=
  match a with
  | ⟨base, children, count⟩ =>
    if count = 0 then true
    else if b.isEmpty then false
    else
      let matched := match base with
        | none => true
        | some v => match b.base with
          | some w => v.refines w
          | none => false
      matched && refinesChildren children b

/-- Whether each child with a base is matched by the child of `b` along the same dimension. -/
def refinesChildren : List (Dimension × Context) → Context → Bool
  | [], _ => true
  | (d, c) :: rest, b =>
    (c.isEmpty || match b.child? d with
      | some k => !k.isEmpty && refinesView c k
      | none => false)
    && refinesChildren rest b

end

/-- Whether `a` refines to `b`; equal contexts are told by their order. -/
def refines (a b : Context) : Bool :=
  (a.baseCount == b.baseCount && a == b) || refinesView a b

end Intension.Context
