import Mathlib.Tactic.SplitIfs
import Intension.Proofs.Binary.Transfer
import Intension.Proofs.Text.Utf8

/-!
# Intension.Proofs.Binary.Parts

The round trips of what nodes are made of: numbers, counts, dimensions, paths and
scalars.  Of each, what is written under some limits is written and read back under
others or else both refused and rejected, and what is read is what is written.
Only a length is ever checked against a limit, by the writer before it writes it
and by the reader once it has read it (`concur_length`).  A bound value is read with
the object that the reader's binder knows its bytes by, whatever object it was
written with (`Scalar.repacked`).
-/

namespace Intension

/-- The scalar with its object, if it is a bound one, looked up anew from its bytes. -/
def Scalar.repacked (binder : Option Binder) : Scalar → Scalar
  | .bound b => .bound (.ofPacked binder b.packed)
  | v => v

end Intension

namespace Intension.Binary

variable {left room : Nat} {limits : Limits} {σ : Setting}

/-! ## numbers -/

/-- A 32-bit integer that is a natural number has the bits of that number. -/
theorem toNat_toUInt32 {i : Int32} {n : Nat} (h : i.toInt = n) : i.toUInt32.toNat = n := by
  have hbits : i.toBitVec.toInt = n := h
  have hcond := BitVec.toInt_eq_toNat_cond i.toBitVec
  have hlt := i.toBitVec.isLt
  change i.toBitVec.toNat = n
  split at hcond <;> omega

/-- A number is written as the integer that it is. -/
theorem word_eq {i : Int32} {n : Nat} (h : i.toInt = n) : Write.word n = Write.int32 i := by
  rw [Write.int32, toNat_toUInt32 h, Write.word]

/-- Below `2 ^ 31` a number is not taken for a negative one. -/
theorem toInt_ofNat {n : Nat} (h : n < 2 ^ (31 : Nat)) : (Int32.ofNat n).toInt = n :=
  Int32.toInt_ofNat_of_lt h

/-- An integer is written and read back as the bytes of its unsigned form. -/
theorem concur_int32 (i : Int32) :
    Concur (Write.int32 i) (Write.int32 i) Read.int32 left left room room i := by
  have hbytes : (UInt32.ofNat (Bytes.toNat (Bytes.bigEndian 4 i.toUInt32.toNat))).toInt32 = i := by
    have hlt := i.toUInt32.toNat_lt
    rw [Bytes.toNat_bigEndian_of_lt (by omega), UInt32.ofNat_toNat, Int32.toInt32_toUInt32]
  have hraw := concur_raw (Bytes.bigEndian 4 i.toUInt32.toNat) left room
  rw [Bytes.length_bigEndian] at hraw
  refine hraw.last ?_
  rw [hbytes]
  exact concur_nothing i left room

/-- A word is written and read back as the number that it is. -/
theorem concur_word {n : Nat} (h : n < 2 ^ (31 : Nat)) :
    Concur (Write.word n) (Write.word n) Read.int32 left left room room (Int32.ofNat n) := by
  rw [word_eq (toInt_ofNat h)]
  exact concur_int32 _

/-- What an integer is read from is what it is written as. -/
theorem consumes_int32 :
    Consumes Read.int32 room room fun i bs => Emits (Write.int32 i) room room bs := by
  refine (consumes_raw 4 room).bind fun bs bs' ⟨heq, hlength⟩ => consumes_nothing ?_
  subst heq
  have hlt : Bytes.toNat bs < 2 ^ (32 : Nat) := by
    have := Bytes.toNat_lt bs
    rwa [hlength] at this
  have hbytes : Bytes.bigEndian 4 (UInt32.ofNat (Bytes.toNat bs)).toInt32.toUInt32.toNat = bs := by
    rw [UInt32.toUInt32_toInt32, UInt32.toNat_ofNat_of_lt' hlt, ← hlength, Bytes.bigEndian_toNat]
  rw [List.append_nil, Write.int32, hbytes]
  exact emits_raw bs room

/-- A number is written and read back bit for bit. -/
theorem concur_number (x : Number) :
    Concur (Write.number x) (Write.number x) Read.number left left room room x := by
  have hbytes : UInt64.ofNat (Bytes.toNat (Bytes.bigEndian 8 x.bits.toNat)) = x.bits := by
    have hlt := x.bits.toNat_lt
    rw [Bytes.toNat_bigEndian_of_lt (by omega), UInt64.ofNat_toNat]
  have hraw := concur_raw (Bytes.bigEndian 8 x.bits.toNat) left room
  rw [Bytes.length_bigEndian] at hraw
  refine hraw.last ?_
  rw [hbytes]
  exact concur_nothing x left room

/-- What a number is read from is what it is written as. -/
theorem consumes_number :
    Consumes Read.number room room fun x bs => Emits (Write.number x) room room bs := by
  refine (consumes_raw 8 room).bind fun bs bs' ⟨heq, hlength⟩ => consumes_nothing ?_
  subst heq
  have hlt : Bytes.toNat bs < 2 ^ (64 : Nat) := by
    have := Bytes.toNat_lt bs
    rwa [hlength] at this
  have hbytes : Bytes.bigEndian 8 (UInt64.ofNat (Bytes.toNat bs)).toNat = bs := by
    rw [UInt64.toNat_ofNat_of_lt' hlt, ← hlength, Bytes.bigEndian_toNat]
  rw [List.append_nil, Write.number, hbytes]
  exact emits_raw bs room

theorem concur_byte (b : UInt8) :
    Concur (Write.byte b) (Write.byte b) Read.byte left left room room b :=
  (concur_raw [b] left room).last (concur_nothing b left room)

/-- What a byte is read from is what it is written as. -/
theorem consumes_byte :
    Consumes Read.byte room room fun b bs => Emits (Write.byte b) room room bs := by
  refine (consumes_raw 1 room).bind fun bs bs' ⟨heq, hlength⟩ => consumes_nothing ?_
  obtain ⟨b, rfl⟩ := List.length_eq_one_iff.1 hlength
  subst heq
  exact emits_raw [b] room

/-! ## counts and lengths -/

/-- A count that its field can hold is written and read back. -/
theorem concur_count (field : Field) (n : Nat) :
    Concur (Write.count field n) (Write.count field n) (Read.count field) left left room room
      n := by
  unfold Write.count
  split
  · next hn =>
    refine .position fun start => (concur_word hn).last ?_
    rw [toInt_ofNat hn]
    exact .unless (by omega) (concur_nothing n left room)
  · exact concur_throw _

/-- What a count is read from is what it is written as, so no negative number is read as one. -/
theorem consumes_count (field : Field) :
    Consumes (Read.count field) room room fun n bs => Emits (Write.count field n) room room bs := by
  refine .position fun start => consumes_int32.bind fun i bs hi => .unless fun hneg =>
    consumes_nothing ?_
  have hn : i.toInt = (i.toInt.toNat : Nat) := by omega
  have hlt : i.toInt.toNat < 2 ^ (31 : Nat) := by
    have := i.toInt_lt
    omega
  rw [List.append_nil, Write.count, if_pos hlt, word_eq hn]
  exact hi

/-- **A length is refused where it is rejected**: above the limit of the writer and reader, and
never at it. -/
theorem concur_length (field : Field) (limit limit' n : Nat) :
    Concur (Write.length field limit n) (Write.length field limit' n) (Read.length field limit')
      left left room room n := by
  rw [Write.length]
  split
  · exact concur_throw _
  · rw [Write.length]
    refine .position fun start => ?_
    by_cases hn : limit' < n
    · rw [if_pos hn]
      refine (concur_count field n).refused (refuses_throw _ room) ?_
      rw [if_pos hn]
      exact (rejects_fail _ _ room []).bind _ []
    · rw [if_neg hn]
      exact (concur_count field n).last (.unless hn (concur_nothing n left room))

/-- A length is read only if it is within its limit, so it can be written under the same one. -/
theorem consumes_length (field : Field) (limit : Nat) :
    Consumes (Read.length field limit) room room fun n bs =>
      Emits (Write.length field limit n) room room bs := by
  refine .position fun start => (consumes_count field).bind fun n bs hn => .unless fun hlimit =>
    consumes_nothing ?_
  rw [List.append_nil, Write.length, if_neg hlimit]
  exact hn

/-! ## parts -/

/-- Bytes are written after their length, and that many are read. -/
theorem concur_payload (bs : List UInt8) :
    Concur (Write.payload limits bs) (Write.payload σ.limits bs) (Read.payload σ)
      left left room room bs :=
  (concur_length _ _ _ _).bind (concur_raw bs left room)

/-- What a payload is read from is what it is written as. -/
theorem consumes_payload :
    Consumes (Read.payload σ) room room fun bs out =>
      Emits (Write.payload σ.limits bs) room room out := by
  refine (consumes_length _ _).bind fun n out hn => (consumes_raw n room).weaken ?_
  rintro bs _ ⟨rfl, rfl⟩
  exact hn.bind (emits_raw bs room)

/-- As many bytes are read as the text has, and they are its encoding. -/
theorem concur_text (t : Text) :
    Concur (Write.raw (Text.bytes t)) (Write.raw (Text.bytes t)) (Read.raw (Text.byteLength t))
      left left room room (Text.bytes t) := by
  have hraw := concur_raw (Text.bytes t) left room
  rwa [Text.length_bytes] at hraw

/-- An optional dimension is written and read back, with its quoting. -/
theorem concur_dimension? (d : Option Dimension) :
    Concur (Write.dimension? limits d) (Write.dimension? σ.limits d) (Read.dimension? σ)
      left left room room d := by
  refine .position fun start => ?_
  cases d with
  | none => exact (concur_word (by decide)).last (concur_nothing none left room)
  | some d =>
    cases d with
    | integer i =>
      exact (concur_word (by decide)).bind <| (concur_int32 i).last (concur_nothing _ left room)
    | name t quoted =>
      refine (concur_word (by decide)).bind <| .position fun flagStart =>
        (concur_byte _).bind <| .unless ?_ <| (concur_length _ _ _ _).bind <|
        .position fun textStart => (concur_text t).last ?_
      · cases quoted <;> decide
      · rw [Utf8.decode_bytes]
        cases quoted <;> exact concur_nothing _ left room

/-- What an optional dimension is read from is what it is written as. -/
theorem consumes_dimension? :
    Consumes (Read.dimension? σ) room room fun d bs =>
      Emits (Write.dimension? σ.limits d) room room bs := by
  refine .position fun start => consumes_int32.bind fun i bs hi => ?_
  dsimp only
  split_ifs with habsent hinteger hname
  · refine consumes_nothing ?_
    rw [List.append_nil, Write.dimension?, word_eq habsent]
    exact hi
  · refine consumes_int32.bind fun j bs' hj => consumes_nothing ?_
    rw [List.append_nil, Write.dimension?, word_eq hinteger]
    exact hi.bind hj
  · refine .position fun flagStart => consumes_byte.bind fun flag flagBytes hflag =>
      .unless fun hle => (consumes_length _ _).bind fun n lengthBytes hlength =>
      .position fun textStart => (consumes_raw n room).bind fun text bs' ⟨heq, hn⟩ => ?_
    subst heq
    split
    · next t ht =>
      refine consumes_nothing ?_
      have hflag' : (if flag == 1 then 1 else 0) = flag := by
        obtain h | h : flag.toNat = 0 ∨ flag.toNat = 1 := by omega
        · obtain rfl : flag = 0 := UInt8.toNat_inj.1 h
          rfl
        · obtain rfl : flag = 1 := UInt8.toNat_inj.1 h
          rfl
      obtain rfl := Utf8.bytes_of_decode ht
      rw [List.append_nil, Write.dimension?, word_eq hname, hflag', ← Text.length_bytes, hn]
      exact hi.bind (hflag.bind (hlength.bind (emits_raw _ room)))
    · exact consumes_fail _ _
  · exact consumes_fail _ _

/-- A dimension is written as an optional one, and its absence is refused in reading. -/
theorem concur_dimension (d : Dimension) :
    Concur (Write.dimension limits d) (Write.dimension σ.limits d) (Read.dimension σ)
      left left room room d :=
  .position fun _ => (concur_dimension? (some d)).last (concur_nothing d left room)

/-- What a dimension is read from is what it is written as. -/
theorem consumes_dimension :
    Consumes (Read.dimension σ) room room fun d bs =>
      Emits (Write.dimension σ.limits d) room room bs := by
  refine .position fun start => consumes_dimension?.bind fun d bs hd => ?_
  cases d with
  | none => exact consumes_fail _ _
  | some d =>
    refine consumes_nothing ?_
    rw [List.append_nil]
    exact hd

/-- Dimensions in turn are written and read back, as many as are asked for. -/
theorem concur_dimensions (l : List Dimension) :
    Concur (Write.dimensions limits l) (Write.dimensions σ.limits l) (Read.dimensions σ l.length)
      left left room room l := by
  induction l with
  | nil => exact concur_nothing [] left room
  | cons d l ih =>
    exact (concur_dimension d).bind (ih.last (concur_nothing (d :: l) left room))

/-- What dimensions are read from is what they are written as. -/
theorem consumes_dimensions (n : Nat) :
    Consumes (Read.dimensions σ n) room room fun l bs =>
      l.length = n ∧ Emits (Write.dimensions σ.limits l) room room bs := by
  induction n with
  | zero => exact consumes_nothing ⟨rfl, emits_nothing room⟩
  | succ n ih =>
    refine consumes_dimension.bind fun d bs hd => ih.bind fun l bs' ⟨hlength, hl⟩ =>
      consumes_nothing ?_
    rw [List.append_nil]
    exact ⟨congrArg (· + 1) hlength, hd.bind hl⟩

/-- A path is written and read back. -/
theorem concur_path (p : Path) :
    Concur (Write.path limits p) (Write.path σ.limits p) (Read.path σ) left left room room p :=
  (concur_length _ _ _ _).bind (concur_dimensions p)

/-- What a path is read from is what it is written as. -/
theorem consumes_path :
    Consumes (Read.path σ) room room fun p bs => Emits (Write.path σ.limits p) room room bs := by
  refine (consumes_length _ _).bind fun n bs hn => (consumes_dimensions n).weaken ?_
  rintro p bs' ⟨rfl, hp⟩
  exact hn.bind hp

/-! ## scalars -/

/-- A kind is known by its own number. -/
theorem ofTag?_tag (k : Kind) : Kind.ofTag? k.tag = some k := by cases k <;> rfl

/-- A kind is known by no other number. -/
theorem tag_of_ofTag? {i : Int} {k : Kind} (h : Kind.ofTag? i = some k) : i = k.tag := by
  unfold Kind.ofTag? at h
  split_ifs at h <;> obtain rfl := Option.some.inj h <;> assumption

/-- What follows the number of its kind brings a scalar back, with its object looked up anew. -/
theorem concur_scalarBody (v : Scalar) :
    Concur (Write.scalarBody limits v) (Write.scalarBody σ.limits v) (Read.scalarBody σ v.kind)
      left left room room (v.repacked σ.binder) := by
  cases v with
  | alpha => exact concur_nothing _ left room
  | omega => exact concur_nothing _ left room
  | number x => exact (concur_number x).last (concur_nothing _ left room)
  | string t =>
    refine .position fun start => (concur_payload _).last ?_
    rw [Utf8.decode_bytes]
    exact concur_nothing _ left room
  | binary bs => exact (concur_payload bs).last (concur_nothing _ left room)
  | bound b => exact (concur_payload b.packed).last (concur_nothing _ left room)

/-- A scalar of the kind that was asked for is read from what it is written as. -/
theorem consumes_scalarBody (k : Kind) :
    Consumes (Read.scalarBody σ k) room room fun v bs =>
      v.kind = k ∧ Emits (Write.scalarBody σ.limits v) room room bs := by
  cases k with
  | alpha => exact consumes_nothing ⟨rfl, emits_nothing room⟩
  | omega => exact consumes_nothing ⟨rfl, emits_nothing room⟩
  | number =>
    refine consumes_number.bind fun x bs hx => consumes_nothing ⟨rfl, ?_⟩
    rwa [List.append_nil]
  | string =>
    refine .position fun start => consumes_payload.bind fun text bs htext => ?_
    split
    · next t ht =>
      obtain rfl := Utf8.bytes_of_decode ht
      refine consumes_nothing ⟨rfl, ?_⟩
      rwa [List.append_nil]
    · exact consumes_fail _ _
  | binary =>
    refine consumes_payload.bind fun payload bs hpayload => consumes_nothing ⟨rfl, ?_⟩
    rwa [List.append_nil]
  | bound =>
    refine consumes_payload.bind fun packed bs hpacked => consumes_nothing ⟨rfl, ?_⟩
    rwa [List.append_nil]

/-- The number of a kind fits a word. -/
theorem tag_lt (k : Kind) : k.tag < 2 ^ (31 : Nat) := by cases k <;> decide

/-- No kind has the number that stands for the absence of a base. -/
theorem tag_ne_absentTag (k : Kind) : k.tag ≠ absentTag := by cases k <;> decide

/-- An optional base is written and read back, with its object looked up anew. -/
theorem concur_base (v : Option Scalar) :
    Concur (Write.base limits v) (Write.base σ.limits v) (Read.base σ) left left room room
      (v.map (Scalar.repacked σ.binder)) := by
  refine .position fun start => ?_
  cases v with
  | none => exact (concur_word (by decide)).last (concur_nothing none left room)
  | some v =>
    have hpresent : (v.kind.tag : Int) ≠ absentTag := by exact_mod_cast tag_ne_absentTag v.kind
    refine (concur_word (tag_lt v.kind)).bind ?_
    dsimp only
    rw [toInt_ofNat (tag_lt v.kind), if_neg hpresent, ofTag?_tag]
    exact (concur_scalarBody v).last (concur_nothing _ left room)

/-- What an optional base is read from is what it is written as. -/
theorem consumes_base :
    Consumes (Read.base σ) room room fun v bs => Emits (Write.base σ.limits v) room room bs := by
  refine .position fun start => consumes_int32.bind fun i bs hi => ?_
  dsimp only
  split
  · next habsent =>
    refine consumes_nothing ?_
    rw [List.append_nil, Write.base, word_eq habsent]
    exact hi
  · split
    · next k hk =>
      refine (consumes_scalarBody k).bind fun v bs' ⟨hv, hbody⟩ => consumes_nothing ?_
      subst hv
      rw [List.append_nil, Write.base, word_eq (tag_of_ofTag? hk)]
      exact hi.bind hbody
    · exact consumes_fail _ _

end Intension.Binary
