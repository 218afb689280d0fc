import Intension.Binary.Reader
import Intension.Context.Navigation
import Intension.LiveTree.View
import Intension.Patch.Compose
import Intension.Proofs.Binary.Shape
import Intension.Proofs.Grammar.Shape
import Intension.Proofs.LiveTree.Observing
import Intension.Proofs.Patch.Composition

/-!
# Intension.Proofs.Reachable

The contexts, patches, changes and live trees that can be had at all: by
building, parsing, reading and editing, from one another.  They are exactly what
is closed under all operations, and all of them have the right shape, so what is
proved of shapes holds of them.
-/

namespace Intension

mutual

/-- The contexts that the operations give. -/
inductive Context.Reachable : Context → Prop
  | empty : Context.Reachable .empty
  | ofBase (v : Scalar) : Context.Reachable (.ofBase v)
  | parse {limits : Limits} {t : Text} {c : Context} (h : Context.parse limits t = .ok c) :
      Context.Reachable c
  | read {σ : Binary.Setting} {s s' : Binary.Input} {c : Context}
      (h : (Binary.Read.context σ).run s = .ok c s') : Context.Reachable c
  | get? {c k : Context} {path : Path} (hc : Context.Reachable c) (hk : c.get? path = some k) :
      Context.Reachable k
  | withDim {c k : Context} (hc : Context.Reachable c) (d : Dimension) (hk : Context.Reachable k) :
      Context.Reachable (Context.withDim d k c)
  | putBase {c : Context} (hc : Context.Reachable c) (v : Scalar) : Context.Reachable (c.putBase v)
  | setBaseAt {c : Context} (hc : Context.Reachable c) (path : Path) (v : Scalar) :
      Context.Reachable (c.setBaseAt path v)
  | takeBase {c : Context} (hc : Context.Reachable c) : Context.Reachable c.takeBase
  | assignBase {c k : Context} {v : Scalar} (hc : Context.Reachable c)
      (hk : c.assignBase v = .ok k) : Context.Reachable k
  | apply {c : Context} (hc : Context.Reachable c) {p : Patch} (hp : Patch.Reachable p) :
      Context.Reachable (c.apply p)
  | applyAt {c : Context} (hc : Context.Reachable c) (path : Path) {p : Patch}
      (hp : Patch.Reachable p) : Context.Reachable (c.applyAt path p)
  | assignAt {c other : Context} (hc : Context.Reachable c) (path : Path)
      (hother : Context.Reachable other) : Context.Reachable (Context.assignAt path other c)
  | clearAt {c : Context} (hc : Context.Reachable c) (path : Path) :
      Context.Reachable (c.clearAt path)
  | snapshot {t k : LiveTree} (ht : LiveTree.Reachable t) {path : Path}
      (hk : t.get? path = some k) : Context.Reachable k.snapshot

/-- The patches that the operations give. -/
inductive Patch.Reachable : Patch → Prop
  | noop : Patch.Reachable .noop
  | clearAll : Patch.Reachable .clearAll
  | ofContext {c : Context} (hc : Context.Reachable c) : Patch.Reachable (.ofContext c)
  | parse {limits : Limits} {t : Text} {p : Patch} (h : Patch.parse limits t = .ok p) :
      Patch.Reachable p
  | read {σ : Binary.Setting} {s s' : Binary.Input} {p : Patch}
      (h : (Binary.Read.patch σ).run s = .ok p s') : Patch.Reachable p
  | get? {p k : Patch} {path : Path} (hp : Patch.Reachable p) (hk : p.get? path = some k) :
      Patch.Reachable k
  | withDim {p k : Patch} (hp : Patch.Reachable p) (d : Dimension) (hk : Patch.Reachable k) :
      Patch.Reachable (Patch.withDim d k p)
  | putBase {p : Patch} (hp : Patch.Reachable p) (v : Scalar) : Patch.Reachable (p.putBase v)
  | setBaseAt {p : Patch} (hp : Patch.Reachable p) (path : Path) (v : Scalar) :
      Patch.Reachable (p.setBaseAt path v)
  | setClearBaseAt {p : Patch} (hp : Patch.Reachable p) (path : Path) :
      Patch.Reachable (p.setClearBaseAt path)
  | resetClearBaseAt {p : Patch} (hp : Patch.Reachable p) (path : Path) :
      Patch.Reachable (p.resetClearBaseAt path)
  | setClearDimsAt {p : Patch} (hp : Patch.Reachable p) (path : Path) :
      Patch.Reachable (p.setClearDimsAt path)
  | resetClearDimsAt {p : Patch} (hp : Patch.Reachable p) (path : Path) :
      Patch.Reachable (p.resetClearDimsAt path)
  | compose {p q : Patch} (hp : Patch.Reachable p) (hq : Patch.Reachable q) :
      Patch.Reachable (.compose p q)
  | composeAt {p q : Patch} (hp : Patch.Reachable p) (path : Path) (hq : Patch.Reachable q) :
      Patch.Reachable (.composeAt path q p)

/-- The changes that bring such contexts and patches. -/
inductive Change.Reachable : Change → Prop
  | patch {p : Patch} (hp : Patch.Reachable p) : Change.Reachable (.patch p)
  | assign {c : Context} (hc : Context.Reachable c) : Change.Reachable (.assign c)
  | clear : Change.Reachable .clear

/-- The live trees that the operations give, whatever observers answer. -/
inductive LiveTree.Reachable : LiveTree → Prop
  | empty : LiveTree.Reachable .empty
  | changeAt {t : LiveTree} (ht : LiveTree.Reachable t) (ch : Channel) (path : Path) {x : Change}
      (hx : Change.Reachable x) : LiveTree.Reachable (t.changeAt ch path x).1
  | attach {t : LiveTree} (ht : LiveTree.Reachable t) (path : Path) (o : Observer) :
      LiveTree.Reachable (t.attach path o)
  | detach {t : LiveTree} (ht : LiveTree.Reachable t) (path : Path) (o : Observer) :
      LiveTree.Reachable (t.detach path o).1
  | kick {t : LiveTree} (ht : LiveTree.Reachable t) (ch : Channel) (path : Path) (deep : Bool) :
      LiveTree.Reachable (t.kick ch path deep).1

end

/-! ## the right shape -/

mutual

/-- **Contexts that can be had are of the shape of contexts.** -/
theorem Context.Reachable.valid {c : Context} : c.Reachable → c.Valid
  | .empty => Context.valid_empty
  | .ofBase v => Context.valid_ofBase v
  | .parse h => Context.valid_parse h
  | .read h => Binary.Read.returns_context _ _ _ _ h
  | .get? hc hk => hc.valid.get? hk
  | .withDim hc d hk => hc.valid.withDim hk.valid d
  | .putBase hc v => hc.valid.putBase v
  | .setBaseAt hc path v => hc.valid.editAt (fun _ hk => hk.putBase v) path
  | .takeBase hc => hc.valid.takeBase
  | .assignBase hc hk => hc.valid.assignBase hk
  | .apply hc hp => hc.valid.apply hp.ordered
  | .applyAt hc path hp => hc.valid.editAt (fun _ hk => hk.apply hp.ordered) path
  | .assignAt hc path hother => hc.valid.editAt (fun _ _ => hother.valid) path
  | .clearAt hc path => hc.valid.editAt (fun _ _ => Context.valid_empty) path
  | .snapshot ht hk => (ht.valid.get? hk).snapshot

/-- **Patches that can be had are ordered.** -/
theorem Patch.Reachable.ordered {p : Patch} : p.Reachable → p.Ordered
  | .noop => Patch.ordered_noop
  | .clearAll => Patch.ordered_clearAll
  | .ofContext hc => Patch.ordered_ofContext hc.valid
  | .parse h => Patch.ordered_parse h
  | .read h => Binary.Read.returns_patch _ _ _ _ h
  | .get? hp hk => hp.ordered.get? hk
  | .withDim hp d hk => hp.ordered.withDim hk.ordered d
  | .putBase hp v => hp.ordered.of_children_eq rfl
  | .setBaseAt hp path v =>
    hp.ordered.editAt (f := fun _ q => q.putBase v) (fun _ _ hk => hk.of_children_eq rfl) _ path
  | .setClearBaseAt hp path =>
    hp.ordered.editAt (f := fun _ q => q.markBase) (fun _ _ hk => hk.of_children_eq rfl) _ path
  | .resetClearBaseAt hp path =>
    hp.ordered.editAt (f := fun _ q => q.unmarkBase) (fun _ _ hk => hk.of_children_eq rfl) _ path
  | .setClearDimsAt hp path => hp.ordered.editAt (fun _ _ hk => hk.setDimsMark _ _) _ path
  | .resetClearDimsAt hp path => hp.ordered.editAt (fun _ _ hk => hk.setDimsMark _ _) _ path
  | .compose hp hq => hp.ordered.compose hq.ordered
  | .composeAt hp path hq => hp.ordered.composeAt hq.ordered path

/-- A change with reachable data has ordered or valid data. -/
theorem Change.Reachable.sound {x : Change} : x.Reachable → x.Sound
  | .patch hp => hp.ordered
  | .assign hc => hc.valid
  | .clear => trivial

/-- **Live trees that can be had are of the shape of live trees.** -/
theorem LiveTree.Reachable.valid {t : LiveTree} : t.Reachable → t.Valid
  | .empty => LiveTree.valid_empty
  | .changeAt ht ch path hx => (ht.valid.carries_changeAt hx.sound ch path).valid
  | .attach ht path o => ht.valid.attach path o
  | .detach ht path o => (ht.valid.keeps_detach path o).valid
  | .kick ht ch path deep => (ht.valid.keeps_kick ch path deep).valid

end

end Intension
