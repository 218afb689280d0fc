import Intension.Proofs.Binary.RoundTrip
import Intension.Proofs.Patch.Settled

/-!
# Intension.Proofs.Binary.PatchRoundTrip

The round trip of patches.  Their binary form is not unique: children may come in
any order, and redundant ones are counted with the others and dropped only when
all is read.  What is written is still read back, as an equal patch of the same
text.  Conversely what was read can be written, for dropping children makes no
count larger and no child longer (`Writable.normalize`), though perhaps as other
bytes than those it was read from.
-/

namespace Intension

namespace Patch

/-- No count is changed. -/
theorem Exact.counts_relabelled {p : Patch} (h : p.Exact) (ρ : Relabelling) :
    (p.relabelled ρ).baseCount = p.baseCount ∧ (p.relabelled ρ).blankCount = p.blankCount := by
  induction h with
  | @intro p sorted bases blanks inner ih =>
    have hbase : (p.base.map ρ.scalar).toList.length = p.base.toList.length := by
      cases p.base <;> rfl
    have hbases : Keyed.total baseCount
        (p.children.map fun e => (ρ.dimension e.1, e.2.relabelled ρ)) =
          Keyed.total baseCount p.children := by
      rw [Keyed.total_map, Keyed.total_congr fun e he => (ih e he).1]
    have hblanks : Keyed.total blankCount
        (p.children.map fun e => (ρ.dimension e.1, e.2.relabelled ρ)) =
          Keyed.total blankCount p.children := by
      rw [Keyed.total_map, Keyed.total_congr fun e he => (ih e he).2]
    rw [relabelled_eq, bases, blanks, ← hbases, ← hblanks, ← hbase]
    exact ⟨rfl, rfl⟩

end Patch

namespace Binary

variable {left room : Nat} {limits : Limits} {σ : Setting}

/-! ## reading back -/

/-- Children that are written in order are put in their places one after the other. -/
theorem concur_patches {readChild : Reader Patch} {l done : List (Dimension × Patch)}
    (hsorted : Keyed.Sorted l) (hdone : ∀ e ∈ l, Keyed.contains e.1 done = false)
    (hread : ∀ e ∈ l, Concur (Write.patch limits e.2) (Write.patch σ.limits e.2) readChild
      left left room room (e.2.relabelled (.repacked σ.binder))) :
    Concur (Write.patches limits l) (Write.patches σ.limits l)
      (Read.patches σ readChild l.length done) left left room room
      ((Patch.relabelledChildren (.repacked σ.binder) l).foldl
        (fun m e => Keyed.insert e.1 e.2 m) done) := by
  induction l generalizing done with
  | nil =>
    rw [Write.patches, Write.patches, Patch.relabelledChildren]
    exact concur_nothing done left room
  | cons e l ih =>
    obtain ⟨d, p⟩ := e
    obtain ⟨hlt, hsorted⟩ := Keyed.sorted_cons.1 hsorted
    obtain ⟨hd, hdone⟩ := List.forall_mem_cons.1 hdone
    obtain ⟨hp, hread⟩ := List.forall_mem_cons.1 hread
    have hrest : ∀ e ∈ l, Keyed.contains e.1
        (Keyed.insert d (p.relabelled (.repacked σ.binder)) done) = false := by
      intro e he
      rw [Keyed.contains_insert, hdone e he, Keyed.beq_eq_false_of_lt (hlt e he)]
      rfl
    rw [Write.patches, Write.patches, Patch.relabelledChildren]
    refine .position fun start => (concur_dimension d).bind <| hp.bind <| .unless ?_ <|
      ih hsorted hrest hread
    rw [Bool.not_eq_true]
    exact hd

/-- Both marks are written as one word and read back. -/
theorem concur_flags (clearsDims clearsBase : Bool) :
    Concur (Write.word (flags clearsDims clearsBase)) (Write.word (flags clearsDims clearsBase))
      Read.int32 left left room room (Int32.ofNat (flags clearsDims clearsBase)) :=
  concur_word (by cases clearsDims <;> cases clearsBase <;> decide)

/-- The word of two marks is not negative. -/
theorem toNat_flags (clearsDims clearsBase : Bool) :
    (Int32.ofNat (flags clearsDims clearsBase)).toUInt32.toNat = flags clearsDims clearsBase := by
  cases clearsDims <;> cases clearsBase <;> decide

/-- A patch is read node by node as it was written, with its redundant children. -/
theorem concur_patchWithin {p : Patch} (hp : p.Exact) (left room : Nat) :
    Concur (Write.patch limits p) (Write.patch σ.limits p) (Read.patchWithin σ room)
      left left room room (p.relabelled (.repacked σ.binder)) := by
  induction hp generalizing left room with
  | @intro p sorted bases blanks inner ih =>
    have hcounts := (Patch.Exact.intro sorted bases blanks inner).counts_relabelled
      (.repacked σ.binder)
    obtain ⟨value, children, clearsBase, clearsDims, baseCount, blankCount⟩ := p
    have hnone : ∀ e ∈ children, Keyed.contains e.1 ([] : List (Dimension × Patch)) = false :=
      fun _ _ => rfl
    rw [Write.patch, Write.patch]
    refine concur_level rfl (fun _ => rfl) (fun left room => ?_) left room
    refine .position fun flagStart => (concur_flags _ _).bind <| .unless ?_ <|
      .position fun blankStart => (concur_count _ _).bind <|
      .position fun baseStart => (concur_count _ _).bind <| (concur_base value).bind <|
      (concur_count _ _).bind <|
      (concur_patches sorted hnone fun e he => ih e he left room).bind ?_
    · rw [toNat_flags]
      cases clearsDims <;> cases clearsBase <;> decide
    · have hsorted : Keyed.Sorted (Patch.relabelledChildren (.repacked σ.binder) children) := by
        rw [Patch.relabelledChildren_eq]
        exact List.pairwise_map.2 sorted
      have hnode : Patch.node (value.map (Scalar.repacked σ.binder))
          (decide (2 ≤ flags clearsDims clearsBase)) (flags clearsDims clearsBase % 2 == 1)
          (Patch.relabelledChildren (.repacked σ.binder) children) =
            Patch.relabelled (.repacked σ.binder)
              ⟨value, children, clearsBase, clearsDims, baseCount, blankCount⟩ := by
        rw [Patch.relabelled]
        cases clearsDims <;> cases clearsBase <;> rfl
      dsimp only
      rw [Keyed.foldl_insert_eq hsorted Keyed.sorted_nil (by simp), toNat_flags, hnode]
      refine .unless ?_ (.unless ?_ (concur_leave.last (concur_nothing _ _ _)))
      · rw [hcounts.1, not_not]
      · rw [hcounts.2, not_not]

/-- **A patch that is written is read back in normal form**, or both refuse it under the other
limits. -/
theorem concur_patch {p : Patch} (hp : p.Exact) :
    Concur (Write.patch limits p) (Write.patch σ.limits p) (Read.patch σ) left left room room
      ((p.relabelled (.repacked σ.binder)).normalize false) :=
  (concur_patchWithin hp left room).last (concur_nothing _ left room)

/-- Under the limits it was written with, a patch is read back in normal form. -/
theorem readsBack_patch {p : Patch} (hp : p.Exact) :
    ReadsBack (Write.patch σ.limits p) (Read.patch σ) room room
      ((p.relabelled (.repacked σ.binder)).normalize false) := (concur_patch hp).readsBack

/-! ## what can be written -/

/-- A patch fits: its counts fit their fields, all that stands in its nodes can be written, and
there is room for its levels. -/
inductive Writable (limits : Limits) : Nat → Patch → Prop
  | intro {room : Nat} {p : Patch}
      (blanks : p.blankCount < 2 ^ (31 : Nat)) (bases : p.baseCount < 2 ^ (31 : Nat))
      (base : ∃ bs, Emits (Write.base limits p.base) room room bs)
      (count : p.children.length < 2 ^ (31 : Nat))
      (dimensions : ∀ e ∈ p.children, ∃ bs, Emits (Write.dimension limits e.1) room room bs)
      (inner : ∀ e ∈ p.children, Writable limits room e.2) : Writable limits (room + 1) p

/-- A count that its field can hold is written. -/
theorem emits_count {field : Field} {n : Nat} (h : n < 2 ^ (31 : Nat)) :
    Emits (Write.count field n) room room (Bytes.bigEndian 4 n) := by
  rw [Write.count, if_pos h]
  exact emits_raw _ room

/-- Only such a count is written. -/
theorem lt_of_emits_count {field : Field} {n : Nat} {bs : List UInt8}
    (h : Emits (Write.count field n) room room bs) : n < 2 ^ (31 : Nat) := by
  by_contra hn
  rw [Write.count, if_neg hn] at h
  cases h #[]

/-- Children can be written if each of them and its dimension can. -/
theorem exists_emits_patches {limits : Limits} {l : List (Dimension × Patch)}
    (hdimensions : ∀ e ∈ l, ∃ bs, Emits (Write.dimension limits e.1) room room bs)
    (hinner : ∀ e ∈ l, ∃ bs, Emits (Write.patch limits e.2) room room bs) :
    ∃ bs, Emits (Write.patches limits l) room room bs := by
  induction l with
  | nil =>
    rw [Write.patches]
    exact ⟨[], emits_nothing room⟩
  | cons e l ih =>
    obtain ⟨⟨a, ha⟩, hdimensions⟩ := List.forall_mem_cons.1 hdimensions
    obtain ⟨⟨b, hb⟩, hinner⟩ := List.forall_mem_cons.1 hinner
    obtain ⟨c, hc⟩ := ih hdimensions hinner
    rw [Write.patches]
    exact ⟨_, ha.bind (hb.bind hc)⟩

/-- **What fits can be written**. -/
theorem Writable.exists_emits {limits : Limits} {p : Patch} (h : Writable limits room p) :
    ∃ bs, Emits (Write.patch limits p) room room bs := by
  induction h with
  | @intro room p blanks bases base count dimensions inner ih =>
    obtain ⟨a, ha⟩ := base
    obtain ⟨b, hb⟩ := exists_emits_patches dimensions ih
    obtain ⟨value, children, clearsBase, clearsDims, baseCount, blankCount⟩ := p
    rw [Write.patch]
    exact ⟨_, (emits_enter limits).bind <| (emits_raw _ room).bind <| (emits_count blanks).bind <|
      (emits_count bases).bind <| ha.bind <| (emits_count count).bind <| hb.bind emits_leave⟩

/-! ### what was read -/

/-- Children that are read are put in order, and each of them is as its reader leaves it. -/
theorem consumes_patches {readChild : Reader Patch} {P : Patch → Prop}
    (hread : Consumes readChild room room fun p _ => P p) (n : Nat)
    {done : List (Dimension × Patch)} (hsorted : Keyed.Sorted done)
    (hdimensions : ∀ e ∈ done, ∃ bs, Emits (Write.dimension σ.limits e.1) room room bs)
    (hinner : ∀ e ∈ done, P e.2) :
    Consumes (Read.patches σ readChild n done) room room fun l _ =>
      l.length = done.length + n ∧ Keyed.Sorted l ∧
        (∀ e ∈ l, ∃ bs, Emits (Write.dimension σ.limits e.1) room room bs) ∧
        ∀ e ∈ l, P e.2 := by
  induction n generalizing done with
  | zero => exact consumes_nothing ⟨rfl, hsorted, hdimensions, hinner⟩
  | succ n ih =>
    refine .position fun start => consumes_dimension.bind fun d bs hd => hread.bind fun p _ hp =>
      .unless fun hnew => ?_
    refine (ih (hsorted.insert d p) (fun e he => ?_) fun e he => ?_).weaken
      fun l _ ⟨hlength, hrest⟩ => ⟨?_, hrest⟩
    · obtain rfl | he := Keyed.mem_insert he
      · exact ⟨bs, hd⟩
      · exact hdimensions e he
    · obtain rfl | he := Keyed.mem_insert he
      · exact hp
      · exact hinner e he
    · rw [hlength, Keyed.length_insert_of_not_contains (Bool.eq_false_iff.2 hnew)]
      omega

/-- A patch as it was read fits, with all that is redundant in it. -/
theorem consumes_patchWithin (room : Nat) :
    Consumes (Read.patchWithin σ room) room room fun p _ =>
      p.Exact ∧ Writable σ.limits room p := by
  induction room with
  | zero =>
    rw [Read.patchWithin]
    exact (consumes_setRoom 0).bind fun _ _ _ => .position fun start => consumes_fail _ _
  | succ room ih =>
    rw [Read.patchWithin]
    refine (consumes_setRoom room).bind fun _ _ _ => .position fun flagStart =>
      consumes_int32.bind fun i _ _ => .unless fun _ => .position fun blankStart =>
      (consumes_count _).bind fun blanks _ hblanks => .position fun baseStart =>
      (consumes_count _).bind fun bases _ hbases => consumes_base.bind fun value bs hvalue =>
      (consumes_count _).bind fun n _ hn =>
      (consumes_patches ih n Keyed.sorted_nil (by simp) (by simp)).bind fun children _ hchildren =>
      .unless fun hbaseCount => .unless fun hblankCount =>
      (consumes_setRoom (room + 1)).bind fun _ _ _ => consumes_nothing ?_
    obtain ⟨hlength, hsorted, hdimensions, hinner⟩ := hchildren
    rw [not_not] at hbaseCount hblankCount
    subst hbaseCount hblankCount
    refine ⟨Patch.exact_node hsorted fun e he => (hinner e he).1, .intro ?_ ?_ ⟨bs, hvalue⟩ ?_
      hdimensions fun e he => (hinner e he).2⟩
    · exact lt_of_emits_count hblanks
    · exact lt_of_emits_count hbases
    · have hlt := lt_of_emits_count hn
      rw [List.length_nil, Nat.zero_add] at hlength
      exact hlength ▸ hlt

/-! ### normal form -/

end Binary

namespace Patch

/-- Children in normal form count for no more than they did, if they do so one by one. -/
theorem total_normalizeChildren_le {weight : Patch → Nat} {clearing : Bool}
    {l : List (Dimension × Patch)}
    (hl : ∀ e ∈ l, weight (e.2.normalize clearing) ≤ weight e.2) :
    Keyed.total weight (normalizeChildren clearing l) ≤ Keyed.total weight l := by
  induction l with
  | nil => exact Nat.le_refl _
  | cons e l ih =>
    obtain ⟨he, hl⟩ := List.forall_mem_cons.1 hl
    have hrest := ih hl
    rw [normalizeChildren_cons, Keyed.total_cons]
    split
    · omega
    · rw [Keyed.total_cons]
      exact Nat.add_le_add he hrest

/-- Normal form counts no more than there was. -/
theorem Exact.counts_normalize_le {p : Patch} (h : p.Exact) (forced : Bool) :
    (p.normalize forced).baseCount ≤ p.baseCount ∧
      (p.normalize forced).blankCount ≤ p.blankCount := by
  induction h generalizing forced with
  | @intro p sorted bases blanks inner ih =>
    have hbases := total_normalizeChildren_le fun e he => (ih e he (p.clearsDims || forced)).1
    have hblanks := total_normalizeChildren_le fun e he => (ih e he (p.clearsDims || forced)).2
    rw [normalize_eq, bases, blanks]
    exact ⟨Nat.add_le_add_left hbases _, Nat.add_le_add_left hblanks _⟩

end Patch

namespace Binary

/-- **What fits still fits in normal form.** -/
theorem Writable.normalize {limits : Limits} {p : Patch} (h : Writable limits room p)
    (hp : p.Exact) (forced : Bool) : Writable limits room (p.normalize forced) := by
  induction h generalizing forced with
  | @intro room p blanks bases base count dimensions inner ih =>
    have hcounts := hp.counts_normalize_le forced
    have hlength := (Patch.length_normalizeChildren_le_essential (p.clearsDims || forced)
      p.children).trans (List.length_filter_le _ _)
    rw [Patch.normalize_eq] at hcounts ⊢
    refine .intro (Nat.lt_of_le_of_lt hcounts.2 blanks) (Nat.lt_of_le_of_lt hcounts.1 bases) base
      (Nat.lt_of_le_of_lt hlength count) ?_ ?_
    · intro e he
      obtain ⟨k, hk, rfl⟩ := Patch.mem_normalizeChildren he
      exact dimensions k hk
    · intro e he
      obtain ⟨k, hk, rfl⟩ := Patch.mem_normalizeChildren he
      exact ih k hk (hp.inner k hk) _

/-- A patch that is read is exact and pruned, and it fits. -/
theorem consumes_patch :
    Consumes (Read.patch σ) room room fun p _ => p.Exact ∧ p.Pruned false ∧
      Writable σ.limits room p := by
  refine (consumes_patchWithin room).bind fun p _ ⟨hp, hwritable⟩ => consumes_nothing ?_
  exact ⟨Patch.exact_normalize (hp.ordered.normalize false), Patch.pruned_normalize false p,
    hwritable.normalize hp false⟩

/-! ## both ways -/

end Binary

namespace Patch

/-- A patch that was written is read back in normal form under any binder, but for what equality
and text do not show. -/
theorem Exact.decode_of_encode {limits : Limits} {p : Patch} {bs : List UInt8} (h : p.Exact)
    (hencode : p.encode limits = .ok bs) (binder : Option Binder) :
    Patch.decode ⟨limits, binder⟩ bs = .ok ((p.normalize false).relabelled (.repacked binder)) := by
  have hback : Binary.ReadsBack (Binary.Write.patch limits p) (Binary.Read.patch ⟨limits, binder⟩)
      limits.maxDepth limits.maxDepth ((p.relabelled (.repacked binder)).normalize false) :=
    Binary.readsBack_patch (σ := ⟨limits, binder⟩) h
  rw [normalize_relabelled] at hback
  exact Binary.decode_of_readsBack (σ := ⟨limits, binder⟩) hback hencode

/-- So it comes back as an equal one just if it is settled, and with the same text just if it is
pruned. -/
theorem Exact.exists_decode_of_encode {limits : Limits} {p : Patch} {bs : List UInt8}
    (h : p.Exact) (hencode : p.encode limits = .ok bs) (binder : Option Binder) :
    ∃ q, Patch.decode ⟨limits, binder⟩ bs = .ok q ∧ (q == p ↔ p.Settled false) ∧
      (q.text = p.text ↔ p.Pruned false) := by
  have htext : ((p.normalize false).relabelled (.repacked binder)).text =
      (p.normalize false).text := spelling_relabelled _ false _
  refine ⟨_, h.decode_of_encode hencode binder, agrees_normalize_iff _ false p, ?_⟩
  rw [htext]
  exact h.text_normalize_eq_iff false

/-- A pruned patch that was written is read back as an equal one of the same text. -/
theorem Pruned.decode_of_encode {limits : Limits} {p : Patch} {bs : List UInt8}
    (hpruned : p.Pruned false) (hexact : p.Exact) (h : p.encode limits = .ok bs)
    (binder : Option Binder) :
    ∃ q, Patch.decode ⟨limits, binder⟩ bs = .ok q ∧ q == p ∧ q.text = p.text := by
  obtain ⟨q, hq, hbeq, htext⟩ := hexact.exists_decode_of_encode h binder
  exact ⟨q, hq, hbeq.2 (hpruned.settled hexact), htext.2 hpruned⟩

/-- **The round trip of patches.**  A patch, once written, is read back by any binder: as an equal
one just if it is settled, and with the same text just if nothing in it is redundant; so both hold
of a patch built as a whole.  And whatever bytes are read as a patch, in order or not, the patch is
tidy, and it is written as bytes that are read as an equal one of the same text. -/
theorem binary_round_trip (limits : Limits) (binder : Option Binder) :
    (∀ p bs, p.Reachable → p.encode limits = .ok bs →
      ∃ q, Patch.decode ⟨limits, binder⟩ bs = .ok q ∧ (p.Built → q == p ∧ q.text = p.text) ∧
        (q == p ↔ p.Settled false) ∧ (q.text = p.text ↔ p.Pruned false)) ∧
    ∀ bs p, Patch.decode ⟨limits, binder⟩ bs = .ok p →
      p.Tidy ∧ ∃ bs', p.encode limits = .ok bs' ∧ ∀ binder' : Option Binder,
        ∃ q, Patch.decode ⟨limits, binder'⟩ bs' = .ok q ∧ q == p ∧ q.text = p.text := by
  refine ⟨fun p bs hp h => ?_, fun bs p h => ?_⟩
  · obtain ⟨q, hq, hbeq, htext⟩ := hp.exact.exists_decode_of_encode h binder
    refine ⟨q, hq, fun hbuilt => ?_, hbeq, htext⟩
    exact ⟨hbeq.2 (hbuilt.pruned.settled hp.exact), htext.2 hbuilt.pruned⟩
  · obtain ⟨hexact, hpruned, hwritable⟩ :=
      Binary.of_consumes (σ := ⟨limits, binder⟩) Binary.consumes_patch h
    obtain ⟨bs', hemits⟩ := hwritable.exists_emits
    have hencode : p.encode limits = .ok bs' := Binary.encode_of_emits hemits
    exact ⟨hexact.tidy hpruned, bs', hencode, hpruned.decode_of_encode hexact hencode⟩

/-- Two children come in descending order, and the second one is redundant. -/
def untidyBytes : List UInt8 :=
  [0, 0, 0, 0, 0, 0, 0, 0, 0, 0, 0, 1, 0, 0, 0, 0, 0, 0, 0, 2] ++
    ([0, 0, 0, 2, 0, 0, 0, 2] ++
      [0, 0, 0, 0, 0, 0, 0, 0, 0, 0, 0, 1, 0, 0, 0, 1, 0, 0, 0, 0]) ++
    ([0, 0, 0, 2, 0, 0, 0, 1] ++
      [0, 0, 0, 0, 0, 0, 0, 0, 0, 0, 0, 0, 0, 0, 0, 0, 0, 0, 0, 0])

/-- They are read as a patch with the other child alone, which is written and read again. -/
theorem binary_round_trip_untidyBytes :
    (∃ bs, (noop.setBaseAt [.integer 2] .alpha).encode .standard = .ok bs ∧
      ∃ q, Patch.decode ⟨.standard, none⟩ bs = .ok q ∧
        q == noop.setBaseAt [.integer 2] .alpha ∧ q.text = "[2:[~]]".toList) ∧
    ∃ p, Patch.decode ⟨.standard, none⟩ untidyBytes = .ok p ∧ p.text = "[2:[~]]".toList ∧
      p.Tidy ∧ ∃ bs, p.encode .standard = .ok bs ∧ ∀ binder : Option Binder,
        ∃ q, Patch.decode ⟨.standard, binder⟩ bs = .ok q ∧ q == p ∧ q.text = p.text := by
  have htext : (Patch.decode ⟨.standard, none⟩ untidyBytes).toOption.map Patch.text =
      some "[2:[~]]".toList := by decide +kernel
  have hbuilt : (noop.setBaseAt [.integer 2] .alpha).Built := .setBaseAt .noop _ _
  obtain ⟨q, hq, hsame, -, -⟩ := (binary_round_trip .standard none).1 _ _ hbuilt.reachable rfl
  refine ⟨⟨_, rfl, q, hq, hsame hbuilt⟩, ?_⟩
  cases hread : Patch.decode ⟨.standard, none⟩ untidyBytes with
  | error e =>
    rw [hread] at htext
    cases htext
  | ok p =>
    rw [hread] at htext
    exact ⟨p, rfl, Option.some.inj htext, (binary_round_trip .standard none).2 _ p hread⟩

/-- The bytes of three nodes, each but the last with one child. -/
def regionPartBytes : List UInt8 :=
  [0, 0, 0, 0, 0, 0, 0, 0, 0, 0, 0, 0, 0, 0, 0, 0, 0, 0, 0, 1] ++
    ([0, 0, 0, 1, 0, 0, 0, 0, 1, 100] ++
      [0, 0, 0, 0, 0, 0, 0, 0, 0, 0, 0, 0, 0, 0, 0, 0, 0, 0, 0, 1]) ++
    ([0, 0, 0, 1, 0, 0, 0, 0, 1, 99] ++
      [0, 0, 0, 0, 0, 0, 0, 0, 0, 0, 0, 0, 0, 0, 0, 0, 0, 0, 0, 0])

/-- **A part of a region is not read back.**  It is written with its two redundant nodes, also when
it was put in the place of another patch, and read without them: as a patch that is not equal to it
and has another text. -/
theorem binary_round_trip_fails_of_regionPart :
    let p := noop.edit (.assign regionPart)
    p.Reachable ∧ p.encode .standard = .ok regionPartBytes ∧
      ∃ q, Patch.decode ⟨.standard, none⟩ regionPartBytes = .ok q ∧ ¬ q == p ∧
        q.text = "[]".toList ∧ p.text = "[d:[c:[]]]".toList := by
  intro p
  have hp : p.Reachable := reachable_regionPart
  have hencode : p.encode .standard = .ok regionPartBytes := rfl
  exact ⟨hp, hencode, noop, hp.exact.decode_of_encode hencode none, by decide, rfl, rfl⟩

end Patch

end Intension
