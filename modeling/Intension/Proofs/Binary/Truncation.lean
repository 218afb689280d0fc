import Intension.Proofs.Binary.RoundTrip

/-!
# Intension.Proofs.Binary.Truncation

Readers do not look beyond what they take.  What follows the input that is left makes no
difference to a reader, neither to what it returns nor to the fault it finds, unless it
fails because the input ends too soon (`Steady`).  So a reader that takes some bytes
cannot do with fewer: of the front of a value that was cut off it finds just that, that
it is cut off (`decode_of_cut`).
-/

namespace Intension.Binary

variable {α β : Type}

/-- Where the input ends. -/
def Input.stop (s : Input) : Nat := s.offset + s.rest.length

/-- The input with more after it. -/
def Input.extend (s : Input) (tail : List UInt8) : Input := { s with rest := s.rest ++ tail }

/-- More bytes were needed at some place than there were up to `stop`. -/
def ReadError.CutAt (e : ReadError) (stop : Nat) : Prop :=
  ∃ needed, e.fault = .truncated needed ∧ e.offset ≤ stop ∧ stop < e.offset + needed

/-- What a reader does stays the same however the input goes on, but for the fault that it ends too
soon.  The reader leaves the input ending where it did. -/
structure Steady (r : Reader α) : Prop where
  ok : ∀ {s s' : Input} {v : α}, r.run s = .ok v s' →
    s'.stop = s.stop ∧ ∀ tail, r.run (s.extend tail) = .ok v (s'.extend tail)
  error : ∀ {s s' : Input} {e : ReadError}, r.run s = .error e s' →
    e.CutAt s.stop ∨ ∀ tail, ∃ s'', r.run (s.extend tail) = .error e s''

section

variable {r : Reader α} {f : α → Reader β}

theorem steady_pure (v : α) : Steady (pure v : Reader α) where
  ok hrun := by
    cases hrun
    exact ⟨rfl, fun _ => rfl⟩
  error hrun := nomatch hrun

/-- A failure that is no lack of bytes stays the same. -/
theorem steady_fail (offset : Nat) (fault : ReadFault) :
    Steady (Read.fail offset fault : Reader α) where
  ok hrun := nomatch hrun
  error hrun := by
    cases hrun
    exact .inr fun _ => ⟨_, rfl⟩

/-- Two steady actions in turn are steady, since the second one meets the longer input too. -/
theorem Steady.bind (h : Steady r) (hf : ∀ v, Steady (f v)) : Steady (r >>= f) where
  ok {s s'' u} hrun := by
    obtain ⟨v, s', hr, hnext⟩ := run_bind_eq_ok_iff.1 hrun
    obtain ⟨hstop, hmore⟩ := h.ok hr
    obtain ⟨hstop', hmore'⟩ := (hf v).ok hnext
    exact ⟨hstop'.trans hstop, fun tail => run_bind_eq_ok_iff.2 ⟨v, _, hmore tail, hmore' tail⟩⟩
  error {s s'' e} hrun := by
    rw [EStateM.run_bind] at hrun
    cases hr : r.run s with
    | error e' s' =>
      rw [hr] at hrun
      cases hrun
      refine (h.error hr).imp_right fun hmore tail => ?_
      obtain ⟨s'', hrun⟩ := hmore tail
      exact ⟨s'', by rw [EStateM.run_bind, hrun]⟩
    | ok v s' =>
      rw [hr] at hrun
      obtain ⟨hstop, hmore⟩ := h.ok hr
      rw [← hstop]
      refine ((hf v).error hrun).imp_right fun hmore' tail => ?_
      obtain ⟨s'', hrun⟩ := hmore' tail
      exact ⟨s'', by rw [EStateM.run_bind, hmore tail]; exact hrun⟩

/-- A check reads nothing, so it does not matter to what follows. -/
theorem Steady.unless {condition : Prop} [Decidable condition] {offset : Nat} {fault : ReadFault}
    {next : Unit → Reader α} (h : Steady (next ())) :
    Steady (if condition then Read.fail offset fault >>= next else next ()) := by
  split
  · exact (steady_fail offset fault : Steady (Read.fail offset fault : Reader Unit)).bind fun _ => h
  · exact h

/-! ## actions -/

/-- The place in the input does not depend on what follows. -/
theorem steady_position : Steady Read.position where
  ok hrun := by
    cases hrun
    exact ⟨rfl, fun _ => rfl⟩
  error hrun := nomatch hrun

/-- The room for levels has nothing to do with the input. -/
theorem steady_setRoom (room : Nat) : Steady (Read.setRoom room) where
  ok hrun := by
    cases hrun
    exact ⟨rfl, fun _ => rfl⟩
  error hrun := nomatch hrun

/-- A reader may look at the room there is. -/
theorem Steady.room {g : Nat → Reader α} (h : ∀ room, Steady (g room)) :
    Steady (do g (← get).room) where
  ok {s _ _} hrun := (h s.room).ok (s := s) hrun
  error {s _ _} hrun := (h s.room).error (s := s) hrun

/-- Bytes are there, or there are too few. -/
theorem run_raw (count : Nat) (s : Input) : (Read.raw count).run s =
    if s.rest.length < count then .error ⟨s.offset, .truncated count⟩ s
    else .ok (s.rest.take count)
      { s with offset := s.offset + count, rest := s.rest.drop count } := by
  have hlength : (s.rest.take count).length < count ↔ s.rest.length < count := by
    rw [List.length_take]
    omega
  rw [← if_congr hlength rfl rfl]
  unfold Read.raw
  rw [EStateM.run_bind]
  change EStateM.run (if _ then _ else _) s = _
  split <;> rfl

/-- Enough bytes are enough however many follow; where there are too few, the input ends before
those that were asked for. -/
theorem steady_raw (count : Nat) : Steady (Read.raw count) where
  ok {s s' v} hrun := by
    rw [run_raw] at hrun
    split at hrun
    · cases hrun
    · next hcount =>
      cases hrun
      refine ⟨?_, fun tail => ?_⟩
      · simp only [Input.stop, List.length_drop]
        omega
      · have hmore : ¬(s.rest ++ tail).length < count := by
          rw [List.length_append]
          omega
        have hle : count ≤ s.rest.length := Nat.le_of_not_lt hcount
        rw [run_raw, Input.extend, if_neg hmore, List.take_append_of_le_length hle,
          List.drop_append_of_le_length hle]
        rfl
  error {s s' e} hrun := by
    rw [run_raw] at hrun
    split at hrun
    · next hcount =>
      cases hrun
      exact .inl ⟨count, rfl, Nat.le_add_right _ _, Nat.add_lt_add_left hcount _⟩
    · cases hrun

end

variable {σ : Setting}

/-! ## parts -/

theorem steady_byte : Steady Read.byte := (steady_raw 1).bind fun _ => steady_pure _

theorem steady_int32 : Steady Read.int32 := (steady_raw 4).bind fun _ => steady_pure _

theorem steady_number : Steady Read.number := (steady_raw 8).bind fun _ => steady_pure _

/-- Only the four bytes of a count matter to it. -/
theorem steady_count (field : Field) : Steady (Read.count field) :=
  steady_position.bind fun _ => steady_int32.bind fun _ => .unless (steady_pure _)

theorem steady_length (field : Field) (limit : Nat) : Steady (Read.length field limit) :=
  steady_position.bind fun _ => (steady_count field).bind fun _ => .unless (steady_pure _)

/-- Only its length and that many bytes matter to a payload. -/
theorem steady_payload : Steady (Read.payload σ) := (steady_length _ _).bind fun n => steady_raw n

theorem steady_dimension? : Steady (Read.dimension? σ) := by
  refine steady_position.bind fun start => steady_int32.bind fun i => ?_
  dsimp only
  split_ifs
  · exact steady_pure _
  · exact steady_int32.bind fun _ => steady_pure _
  · refine steady_position.bind fun _ => steady_byte.bind fun flag => .unless <|
      (steady_length _ _).bind fun n => steady_position.bind fun _ => (steady_raw n).bind
      fun bs => ?_
    cases Utf8.decode bs with
    | ok t => exact steady_pure _
    | error fault => exact steady_fail _ _
  · exact steady_fail _ _

theorem steady_dimension : Steady (Read.dimension σ) := by
  refine steady_position.bind fun _ => steady_dimension?.bind fun d => ?_
  cases d with
  | none => exact steady_fail _ _
  | some d => exact steady_pure d

/-- As many dimensions are read as are asked for, whatever follows. -/
theorem steady_dimensions (n : Nat) : Steady (Read.dimensions σ n) := by
  induction n with
  | zero => exact steady_pure []
  | succ n ih => exact steady_dimension.bind fun _ => ih.bind fun _ => steady_pure _

theorem steady_path : Steady (Read.path σ) := (steady_length _ _).bind fun n => steady_dimensions n

theorem steady_scalarBody (k : Kind) : Steady (Read.scalarBody σ k) := by
  cases k with
  | alpha => exact steady_pure _
  | omega => exact steady_pure _
  | number => exact steady_number.bind fun _ => steady_pure _
  | string =>
    refine steady_position.bind fun _ => steady_payload.bind fun bs => ?_
    cases Utf8.decode bs with
    | ok t => exact steady_pure _
    | error fault => exact steady_fail _ _
  | binary => exact steady_payload.bind fun _ => steady_pure _
  | bound => exact steady_payload.bind fun _ => steady_pure _

theorem steady_base : Steady (Read.base σ) := by
  refine steady_position.bind fun _ => steady_int32.bind fun i => ?_
  dsimp only
  split
  · exact steady_pure none
  · split
    · next k _ => exact (steady_scalarBody k).bind fun _ => steady_pure _
    · exact steady_fail _ _

/-! ## nodes -/

/-- Children in turn are steady if each of them is. -/
theorem steady_contexts {readChild : Reader Context} (hread : Steady readChild) (n : Nat)
    (last : Option Dimension) : Steady (Read.contexts σ readChild n last) := by
  induction n generalizing last with
  | zero => exact steady_pure []
  | succ n ih =>
    exact steady_position.bind fun _ => steady_dimension.bind fun d => .unless <|
      steady_position.bind fun _ => hread.bind fun _ => .unless <|
      (ih (some d)).bind fun _ => steady_pure _

/-- A context is steady at every level. -/
theorem steady_contextWithin (room : Nat) : Steady (Read.contextWithin σ room) := by
  induction room with
  | zero => exact (steady_setRoom 0).bind fun _ => steady_position.bind fun _ => steady_fail _ _
  | succ room ih =>
    exact (steady_setRoom room).bind fun _ => steady_position.bind fun _ =>
      (steady_count _).bind fun _ => steady_base.bind fun _ => (steady_count _).bind fun n =>
      (steady_contexts ih n none).bind fun _ => .unless <|
      (steady_setRoom (room + 1)).bind fun _ => steady_pure _

theorem steady_context : Steady (Read.context σ) := .room steady_contextWithin

/-- Children in turn are steady if each of them is. -/
theorem steady_patches {readChild : Reader Patch} (hread : Steady readChild) (n : Nat)
    (done : List (Dimension × Patch)) : Steady (Read.patches σ readChild n done) := by
  induction n generalizing done with
  | zero => exact steady_pure done
  | succ n ih =>
    exact steady_position.bind fun _ => steady_dimension.bind fun _ => hread.bind fun _ =>
      .unless (ih _)

/-- A patch is steady at every level. -/
theorem steady_patchWithin (room : Nat) : Steady (Read.patchWithin σ room) := by
  induction room with
  | zero => exact (steady_setRoom 0).bind fun _ => steady_position.bind fun _ => steady_fail _ _
  | succ room ih =>
    exact (steady_setRoom room).bind fun _ => steady_position.bind fun _ => steady_int32.bind
      fun _ => .unless <| steady_position.bind fun _ => (steady_count _).bind fun _ =>
      steady_position.bind fun _ => (steady_count _).bind fun _ => steady_base.bind fun _ =>
      (steady_count _).bind fun n => (steady_patches ih n []).bind fun _ => .unless <| .unless <|
      (steady_setRoom (room + 1)).bind fun _ => steady_pure _

/-- Normal form is taken once the bytes are read, so it does not matter. -/
theorem steady_patch : Steady (Read.patch σ) :=
  .room fun room => (steady_patchWithin (σ := σ) room).bind fun p =>
    steady_pure (p.normalize false)

/-! ## input that is cut off -/

/-- **What is cut off is found to be cut off**: where the reader takes some bytes and only a strict
front of them is there, it needs more than there is. -/
theorem decode_of_cut {r : Reader α} (hr : Steady r) {v : α} {room' : Nat} {bs front : List UInt8}
    (htakes : Takes r σ.limits.maxDepth room' bs v) (hfront : front <+: bs) (hne : front ≠ bs) :
    ∃ e, decode σ r front = .error e ∧ e.CutAt front.length := by
  obtain ⟨tail, rfl⟩ := hfront
  have hall : r.run ((Input.start σ.limits front).extend tail) =
      .ok v ⟨0 + (front ++ tail).length, [], room'⟩ := by
    have := htakes 0 []
    rwa [List.append_nil] at this
  rw [decode]
  cases hrun : r.run (.start σ.limits front) with
  | ok u s =>
    -- it would stop here on all of the bytes too, and leave the rest of them
    have hmore := (hr.ok hrun).2 tail
    rw [hall] at hmore
    have hrest : s.rest ++ tail = [] := by
      injection hmore with _ hinput
      exact (congrArg Input.rest hinput).symm
    obtain ⟨-, rfl⟩ := List.append_eq_nil_iff.1 hrest
    exact absurd (List.append_nil front).symm hne
  | error e s =>
    refine ⟨e, ?_, ?_⟩
    · rw [EStateM.run_bind, hrun]
    · obtain hcut | hmore := hr.error hrun
      · rw [Input.stop, Input.start, Nat.zero_add] at hcut
        exact hcut
      · obtain ⟨s', herror⟩ := hmore tail
        rw [hall] at herror
        cases herror

end Intension.Binary
