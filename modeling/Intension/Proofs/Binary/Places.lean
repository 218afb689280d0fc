import Intension.Proofs.Binary.Sequence

/-!
# Intension.Proofs.Binary.Places

Where readers are, and where they say a fault is.  What is left of the input is always
the rest of the bytes from the offset on, so the bytes that are taken are those between
two offsets, both inside the input (`run_raw_of`).  A fault is found at a place that a
reader has been at, or, for a string that is no text, after the length that stands
before it; as a reader only goes forward, and no further than the end, all of these are
places in the input (`Inside`, `decode_error_offset_le`).
-/

namespace Intension.Binary

variable {α β : Type}

/-- The input is what is left of some bytes from its offset on. -/
structure Input.Of (bs : List UInt8) (s : Input) : Prop where
  le : s.offset ≤ bs.length
  rest_eq : s.rest = bs.drop s.offset

/-- The whole input is the bytes before the offset and those to come. -/
theorem Input.of_start (limits : Limits) (bs : List UInt8) : (Input.start limits bs).Of bs where
  le := Nat.zero_le _
  rest_eq := rfl

/-- What is left goes from the offset to the end. -/
theorem Input.Of.length_rest {bs : List UInt8} {s : Input} (h : s.Of bs) :
    s.rest.length = bs.length - s.offset := by
  rw [h.rest_eq, List.length_drop]

/-- Started at `lo` or later, the reader stays inside the bytes: it is left somewhere in them and
faults are at places in them.  If it gets to its end, it is `n` bytes further at least. -/
structure Inside (lo n : Nat) (r : Reader α) : Prop where
  ok : ∀ {bs : List UInt8} {s s' : Input} {v : α}, s.Of bs → lo ≤ s.offset →
    r.run s = .ok v s' → s'.Of bs ∧ s.offset + n ≤ s'.offset
  error : ∀ {bs : List UInt8} {s s' : Input} {e : ReadError}, s.Of bs → lo ≤ s.offset →
    r.run s = .error e s' → s'.Of bs ∧ e.offset ≤ bs.length

section

variable {lo n m : Nat} {r : Reader α} {f : α → Reader β}

/-- An action that reads nothing stays inside. -/
theorem inside_pure (v : α) : Inside lo 0 (pure v : Reader α) where
  ok hs _ hrun := by
    cases hrun
    exact ⟨hs, Nat.le_refl _⟩
  error _ _ hrun := nomatch hrun

/-- A fault is inside the bytes where the reader was there already. -/
theorem inside_fail {offset : Nat} {fault : ReadFault} (h : offset ≤ lo) :
    Inside lo n (Read.fail offset fault : Reader α) where
  ok _ _ hrun := nomatch hrun
  error hs hlo hrun := by
    cases hrun
    exact ⟨hs, h.trans (hlo.trans hs.le)⟩

/-- Two actions in turn advance as far as both together, and either may fail. -/
theorem Inside.bind (h : Inside lo n r) (hf : ∀ v, Inside (lo + n) m (f v)) :
    Inside lo (n + m) (r >>= f) where
  ok {bs s s'' u} hs hlo hrun := by
    obtain ⟨v, s', hr, hnext⟩ := run_bind_eq_ok_iff.1 hrun
    obtain ⟨hs', hle⟩ := h.ok hs hlo hr
    obtain ⟨hs'', hle'⟩ := (hf v).ok hs' (by omega) hnext
    exact ⟨hs'', by omega⟩
  error {bs s s'' e} hs hlo hrun := by
    rw [EStateM.run_bind] at hrun
    cases hr : r.run s with
    | error e' s' =>
      rw [hr] at hrun
      cases hrun
      exact h.error hs hlo hr
    | ok v s' =>
      rw [hr] at hrun
      obtain ⟨hs', hle⟩ := h.ok hs hlo hr
      exact (hf v).error hs' (by omega) hrun

/-- A reader that starts further on and has to advance less stays inside too. -/
theorem Inside.mono {lo' : Nat} (h : Inside lo n r) (hlo : lo ≤ lo') (hm : m ≤ n) :
    Inside lo' m r where
  ok hs hle hrun := (h.ok hs (hlo.trans hle) hrun).imp_right fun hle' => by omega
  error hs hle hrun := h.error hs (hlo.trans hle) hrun

/-- It is enough that the first action advances. -/
theorem Inside.bind_zero (h : Inside lo n r) (hf : ∀ v, Inside (lo + n) 0 (f v)) :
    Inside lo n (r >>= f) :=
  h.bind hf

/-- How far the first reader gets makes no difference where nothing is put after its start. -/
theorem Inside.andThen (h : Inside lo m r) (hf : ∀ v, Inside lo n (f v)) :
    Inside lo n (r >>= f) :=
  (h.bind fun v => (hf v).mono (Nat.le_add_right _ _) (Nat.le_refl _)).mono (Nat.le_refl _)
    (Nat.le_add_left _ _)

/-- A reader may look at where it stands before it goes on. -/
theorem Inside.looking {g : Input → Reader α}
    (h : ∀ s : Input, lo ≤ s.offset → Inside s.offset n (g s)) : Inside lo n (get >>= g) where
  ok {_ s _ _} hs hlo hrun := (h s hlo).ok hs (Nat.le_refl _) hrun
  error {_ s _ _} hs hlo hrun := (h s hlo).error hs (Nat.le_refl _) hrun

/-- Faults may be put where the reader started. -/
theorem Inside.from_position {f : Nat → Reader α}
    (h : ∀ start, lo ≤ start → Inside start n (f start)) : Inside lo n (Read.position >>= f) :=
  .looking fun s hlo => h s.offset hlo

/-- A reader may look at the room for levels before it goes on. -/
theorem Inside.room {g : Nat → Reader α} (h : ∀ room, Inside lo n (g room)) :
    Inside lo n (do g (← get).room) :=
  .looking fun s hlo => (h s.room).mono hlo (Nat.le_refl _)

/-- A check that fails points back to a place already passed. -/
theorem Inside.unless {condition : Prop} [Decidable condition] {offset : Nat} {fault : ReadFault}
    {next : Unit → Reader α} (hoffset : offset ≤ lo) (h : Inside lo n (next ())) :
    Inside lo n (if condition then Read.fail offset fault >>= next else next ()) := by
  split
  · exact (inside_fail hoffset : Inside lo 0 (Read.fail offset fault : Reader Unit)).andThen
      fun _ => h
  · exact h

theorem inside_setRoom (room : Nat) : Inside lo 0 (Read.setRoom room) where
  ok hs _ hrun := by
    cases hrun
    exact ⟨⟨hs.le, hs.rest_eq⟩, Nat.le_refl _⟩
  error _ _ hrun := nomatch hrun

/-- What is taken are the bytes between two offsets, where there are as many; where there are not,
nothing is. -/
theorem run_raw_of {bs : List UInt8} {s : Input} (hs : s.Of bs) (count : Nat) :
    (s.offset + count ≤ bs.length ∧ (Read.raw count).run s =
      .ok (bs.extract s.offset (s.offset + count))
        { s with offset := s.offset + count, rest := bs.drop (s.offset + count) }) ∨
    (bs.length < s.offset + count ∧
      (Read.raw count).run s = .error ⟨s.offset, .truncated count⟩ s) := by
  have hle := hs.le
  rw [run_raw, hs.length_rest]
  split
  · next hcount => exact .inr ⟨by omega, rfl⟩
  · next hcount =>
    refine .inl ⟨by omega, ?_⟩
    rw [hs.rest_eq, List.drop_drop, List.extract_eq_take_drop, Nat.add_sub_cancel_left]

/-- Where fewer bytes are left than asked for, the place of the error is still inside. -/
theorem inside_raw (count : Nat) : Inside lo count (Read.raw count) where
  ok hs _ hrun := by
    obtain ⟨hle, heq⟩ | ⟨-, heq⟩ := run_raw_of hs count <;> rw [heq] at hrun <;> cases hrun
    exact ⟨⟨hle, rfl⟩, Nat.le_refl _⟩
  error hs _ hrun := by
    obtain ⟨-, heq⟩ | ⟨-, heq⟩ := run_raw_of hs count <;> rw [heq] at hrun <;> cases hrun
    exact ⟨hs, hs.le⟩

end

variable {σ : Setting} {lo : Nat}

/-! ## parts -/

theorem inside_byte : Inside lo 1 Read.byte := (inside_raw 1).bind_zero fun _ => inside_pure _

theorem inside_int32 : Inside lo 4 Read.int32 := (inside_raw 4).bind_zero fun _ => inside_pure _

theorem inside_number : Inside lo 8 Read.number := (inside_raw 8).bind_zero fun _ => inside_pure _

/-- A negative count is refused at its own first byte. -/
theorem inside_count (field : Field) : Inside lo 4 (Read.count field) :=
  .from_position fun _ _ => inside_int32.bind_zero fun _ => .unless (Nat.le_add_right _ _) (inside_pure _)

/-- A length above its limit is refused at its own first byte. -/
theorem inside_length (field : Field) (limit : Nat) : Inside lo 4 (Read.length field limit) :=
  .from_position fun _ _ => (inside_count field).bind_zero fun _ => .unless (Nat.le_add_right _ _)
    (inside_pure _)

/-- A payload comes after the four bytes of its length. -/
theorem inside_payload : Inside lo 4 (Read.payload σ) :=
  (inside_length _ _).bind_zero fun n => (inside_raw n).mono (Nat.le_refl _) (Nat.zero_le n)

/-- An optional dimension is read inside, also where its kind or its text is refused. -/
theorem inside_dimension? : Inside lo 0 (Read.dimension? σ) := by
  refine .from_position fun start _ => inside_int32.andThen fun i => ?_
  dsimp only
  split_ifs
  · exact inside_pure _
  · exact inside_int32.andThen fun _ => inside_pure _
  · refine .from_position fun flagStart _ => inside_byte.andThen
      fun flag => .unless (Nat.le_refl _) <|
      (inside_length _ _).andThen fun n =>
      .from_position fun textStart _ => (inside_raw n).andThen
      fun bs => ?_
    cases Utf8.decode bs with
    | ok t => exact inside_pure _
    | error fault => exact inside_fail (Nat.le_refl textStart)
  · exact inside_fail (Nat.le_refl start)

theorem inside_dimension : Inside lo 0 (Read.dimension σ) := by
  refine .from_position fun start _ => inside_dimension?.andThen fun d => ?_
  cases d with
  | none => exact inside_fail (Nat.le_refl start)
  | some d => exact inside_pure d

/-- Dimensions in turn are read inside. -/
theorem inside_dimensions (n : Nat) : Inside lo 0 (Read.dimensions σ n) := by
  induction n with
  | zero => exact inside_pure []
  | succ n ih => exact inside_dimension.andThen fun _ => ih.andThen fun _ => inside_pure _

theorem inside_path : Inside lo 0 (Read.path σ) :=
  (inside_length _ _).andThen fun n => inside_dimensions n

/-- What follows the number of a kind is read inside, also where its text is refused. -/
theorem inside_scalarBody (k : Kind) : Inside lo 0 (Read.scalarBody σ k) := by
  cases k with
  | alpha => exact inside_pure _
  | omega => exact inside_pure _
  | number => exact inside_number.andThen fun _ => inside_pure _
  | string =>
    -- the fault is put after the length, which was there when the string turns out to be no text
    refine .from_position fun start _ =>
      (inside_payload.bind_zero fun bs => ?_).mono (Nat.le_refl _) (Nat.zero_le 4)
    cases Utf8.decode bs with
    | ok t => exact inside_pure _
    | error fault => exact inside_fail (Nat.le_refl (start + 4))
  | binary => exact inside_payload.andThen fun _ => inside_pure _
  | bound => exact inside_payload.andThen fun _ => inside_pure _

/-- An optional base is read inside, also where its kind is refused. -/
theorem inside_base : Inside lo 0 (Read.base σ) := by
  refine .from_position fun start _ => inside_int32.andThen fun i => ?_
  dsimp only
  split
  · exact inside_pure none
  · split
    · next k _ => exact (inside_scalarBody k).andThen fun _ => inside_pure _
    · exact inside_fail (Nat.le_refl start)

/-! ## nodes -/

/-- Children are read inside if each of them is, and one out of order is refused at its dimension.
-/
theorem inside_contexts {readChild : Reader Context}
    (hread : ∀ {lo : Nat}, Inside lo 0 readChild) (n : Nat) (last : Option Dimension) :
    Inside lo 0 (Read.contexts σ readChild n last) := by
  induction n generalizing last lo with
  | zero => exact inside_pure []
  | succ n ih =>
    exact .from_position fun start _ => inside_dimension.andThen fun d =>
      .unless (Nat.le_refl start) <| .from_position fun childStart _ => hread.andThen fun _ =>
      .unless (Nat.le_refl childStart) <| (ih (some d)).andThen fun _ => inside_pure _

/-- A context is read inside at every level, and a wrong count is refused at that count. -/
theorem inside_contextWithin (room : Nat) : Inside lo 0 (Read.contextWithin σ room) := by
  induction room generalizing lo with
  | zero =>
    exact (inside_setRoom 0).andThen fun _ => .from_position fun start _ =>
      inside_fail (Nat.le_refl start)
  | succ room ih =>
    exact (inside_setRoom room).andThen fun _ => .from_position fun countStart _ =>
      (inside_count _).andThen fun _ => inside_base.andThen fun _ =>
      (inside_count _).andThen fun n =>
      (inside_contexts ih n none).andThen fun _ => .unless (Nat.le_refl countStart) <|
      (inside_setRoom (room + 1)).andThen fun _ => inside_pure _

theorem inside_context : Inside lo 0 (Read.context σ) := .room inside_contextWithin

/-- Children are read inside if each of them is, and one twice is refused at its dimension. -/
theorem inside_patches {readChild : Reader Patch}
    (hread : ∀ {lo : Nat}, Inside lo 0 readChild) (n : Nat) (done : List (Dimension × Patch)) :
    Inside lo 0 (Read.patches σ readChild n done) := by
  induction n generalizing done lo with
  | zero => exact inside_pure done
  | succ n ih =>
    exact .from_position fun start _ => inside_dimension.andThen fun _ => hread.andThen fun _ =>
      .unless (Nat.le_refl start) (ih _)

/-- A patch is read inside at every level, and a wrong count is refused at that count. -/
theorem inside_patchWithin (room : Nat) : Inside lo 0 (Read.patchWithin σ room) := by
  induction room generalizing lo with
  | zero =>
    exact (inside_setRoom 0).andThen fun _ => .from_position fun start _ =>
      inside_fail (Nat.le_refl start)
  | succ room ih =>
    exact (inside_setRoom room).andThen fun _ => .from_position fun flagStart _ =>
      inside_int32.andThen fun _ => .unless (Nat.le_refl flagStart) <|
      .from_position fun blankStart _ =>
      (inside_count _).andThen fun _ =>
      .from_position fun baseStart hblank =>
      (inside_count _).andThen fun _ => inside_base.andThen fun _ =>
      (inside_count _).andThen fun n =>
      (inside_patches ih n []).andThen fun _ => .unless (Nat.le_refl baseStart) <|
      .unless hblank <| (inside_setRoom (room + 1)).andThen fun _ => inside_pure _

theorem inside_patch : Inside lo 0 (Read.patch σ) :=
  .room fun room => (inside_patchWithin (σ := σ) room).andThen fun p =>
    inside_pure (p.normalize false)

/-! ## whole inputs -/

/-- **Every reader stays inside its input**, whatever kind of value it reads. -/
theorem inside_read (form : Form) : Inside lo 0 (form.read σ) := by
  cases form with
  | context => exact inside_context.andThen fun _ => inside_pure _
  | patch => exact inside_patch.andThen fun _ => inside_pure _
  | dimension => exact inside_dimension.andThen fun _ => inside_pure _
  | dimension? => exact inside_dimension?.andThen fun _ => inside_pure _
  | path => exact inside_path.andThen fun _ => inside_pure _
  | base => exact inside_base.andThen fun _ => inside_pure _

/-- Bytes that are left over are refused where they begin. -/
theorem inside_finish : Inside lo 0 Read.finish :=
  .looking fun s _ => .unless (Nat.le_refl s.offset) (inside_pure ())

/-- **Faults are at places in the input.** -/
theorem decode_error_offset_le {r : Reader α} (hr : Inside 0 0 r) {bs : List UInt8}
    {e : ReadError} (h : decode σ r bs = .error e) : e.offset ≤ bs.length := by
  rw [decode] at h
  have hall : Inside 0 0 (do let v ← r; Read.finish; return v : Reader α) :=
    hr.andThen fun v => inside_finish.andThen fun _ => inside_pure v
  split at h
  · cases h
  · next e' s' hrun =>
    cases h
    exact (hall.error (Input.of_start σ.limits bs) (Nat.zero_le _) hrun).2

end Intension.Binary
