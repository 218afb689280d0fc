import Intension.Proofs.Grammar.Agreement
import Intension.Proofs.Patch.Pruned
import Intension.Proofs.Reachable

/-!
# Intension.Proofs.Built

The patches that are built as wholes.  A patch that is taken out of another one
(`Patch.get?`) may have stood in a clearing region, where other children are
redundant than at the top; it can be had all the same, and it can be put into
others (`regionPart` is such a part).  Every other way to have a patch leaves no
redundant child in it.
-/

namespace Intension.Patch

/-- The patches that the operations give as wholes, out of any contexts and patches. -/
inductive Built : Patch → Prop
  | noop : Built .noop
  | clearAll : Built .clearAll
  | ofContext {c : Context} (hc : c.Reachable) : Built (.ofContext c)
  | parse {limits : Limits} {t : Text} {p : Patch} (h : Patch.parse limits t = .ok p) : Built p
  | read {σ : Binary.Setting} {s s' : Binary.Input} {p : Patch}
      (h : (Binary.Read.patch σ).run s = .ok p s') : Built p
  | withDim {p k : Patch} (hp : Built p) (d : Dimension) (hk : k.Reachable) :
      Built (Patch.withDim d k p)
  | putBase {p : Patch} (hp : Built p) (v : Scalar) : Built (p.putBase v)
  | setBaseAt {p : Patch} (hp : Built p) (path : Path) (v : Scalar) : Built (p.setBaseAt path v)
  | setClearBaseAt {p : Patch} (hp : Built p) (path : Path) : Built (p.setClearBaseAt path)
  | resetClearBaseAt {p : Patch} (hp : Built p) (path : Path) : Built (p.resetClearBaseAt path)
  | setClearDimsAt {p : Patch} (hp : Built p) (path : Path) : Built (p.setClearDimsAt path)
  | resetClearDimsAt {p : Patch} (hp : Built p) (path : Path) : Built (p.resetClearDimsAt path)
  | compose {p q : Patch} (hp : Built p) (hq : q.Reachable) : Built (.compose p q)
  | composeAt {p q : Patch} (hp : Built p) (path : Path) (hq : q.Reachable) :
      Built (.composeAt path q p)

/-- What is built as a whole can be had. -/
theorem Built.reachable {p : Patch} (h : p.Built) : p.Reachable := by
  induction h with
  | noop => exact .noop
  | clearAll => exact .clearAll
  | ofContext hc => exact .ofContext hc
  | parse h => exact .parse h
  | read h => exact .read h
  | withDim _ d hk ih => exact .withDim ih d hk
  | putBase _ v ih => exact .putBase ih v
  | setBaseAt _ path v ih => exact .setBaseAt ih path v
  | setClearBaseAt _ path ih => exact .setClearBaseAt ih path
  | resetClearBaseAt _ path ih => exact .resetClearBaseAt ih path
  | setClearDimsAt _ path ih => exact .setClearDimsAt ih path
  | resetClearDimsAt _ path ih => exact .resetClearDimsAt ih path
  | compose _ hq ih => exact .compose ih hq
  | composeAt _ path hq ih => exact .composeAt ih path hq

theorem Built.ordered {p : Patch} (h : p.Built) : p.Ordered := h.reachable.ordered

/-- What is parsed is put into normal form. -/
theorem pruned_parse {limits : Limits} {t : Text} {p : Patch}
    (h : Patch.parse limits t = .ok p) : p.Pruned false := by
  obtain ⟨_, n, -, -, rfl⟩ := Grammar.readPatch_eq_ok_iff.1 h
  exact pruned_normalize false n.patch

/-- What is read is put into normal form. -/
theorem returns_pruned (σ : Binary.Setting) :
    Binary.Read.Returns (Binary.Read.patch σ) (Pruned false) :=
  Binary.Read.returns_after _ fun _ => Binary.Read.returns_after _ fun p =>
    Binary.Read.returns_pure (pruned_normalize false p)

/-- **Patches that are built as wholes are pruned.** -/
theorem Built.pruned {p : Patch} (h : p.Built) : p.Pruned false := by
  induction h with
  | noop => exact pruned_absent false false
  | clearAll => exact pruned_absent false true
  | ofContext hc => exact pruned_ofContext hc.valid false
  | parse h => exact pruned_parse h
  | read h => exact returns_pruned _ _ _ _ h
  | withDim _ d hk ih => exact ih.withDim d _
  | putBase _ v ih => exact ih.of_children_eq rfl rfl
  | setBaseAt hp path v ih =>
    exact ih.editAt_of_children_eq (Patch.putBase v) (fun _ => rfl) (fun _ => rfl) hp.ordered path
  | setClearBaseAt hp path ih =>
    exact ih.editAt_of_children_eq markBase (fun _ => rfl) (fun _ => rfl) hp.ordered path
  | resetClearBaseAt hp path ih =>
    exact ih.editAt_of_children_eq unmarkBase (fun _ => rfl) (fun _ => rfl) hp.ordered path
  | setClearDimsAt hp path ih =>
    exact ih.editAt (fun _ _ _ hk => hk.setDimsMark true) hp.ordered path
  | resetClearDimsAt hp path ih =>
    exact ih.editAt (fun _ _ _ hk => hk.setDimsMark false) hp.ordered path
  | compose hp hq ih => exact ih.composeInto hq.ordered false false hp.ordered
  | composeAt hp path hq ih =>
    have hstep (forced : Bool) (k : Patch) (hordered : k.Ordered) (hk : k.Pruned forced) :=
      hk.composeInto hq.ordered forced false hordered
    exact ih.editAt (fun forced k hordered hk => by simpa using hstep forced k hordered hk)
      hp.ordered path

end Intension.Patch
